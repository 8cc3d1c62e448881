import OpenApi.Artifact.Client

/-!
Hooks for SWR.
-/
namespace OpenApi.Artifact.Swr

open Client (parameter ifArgs result)

def imports : List String := [
  "import useSWR from 'swr'",
  "import type \x7b Key, SWRConfiguration \x7d from 'swr'",
  "import useSWRMutation from 'swr/mutation'",
  "import type \x7b SWRMutationConfiguration \x7d from 'swr/mutation'"]

def query (op : OperationView) : List String := [
  s!"export function {op.hook}({parameter op}options?: \x7b",
  "  swr?: SWRConfiguration & \x7b swrKey?: Key; enabled?: boolean \x7d",
  "  client?: ClientRequestOptions",
  "\x7d) \x7b",
  "  const \x7b swr: swrOptions, client: clientOptions \x7d = options ?? \x7b\x7d",
  "  const \x7b swrKey: customKey, enabled, ...restSwrOptions \x7d = swrOptions ?? \x7b\x7d",
  "  const isEnabled = enabled !== false",
  "  const swrKey = isEnabled ? (customKey ?? " ++ op.cacheKey ++ "(" ++ ifArgs op "args"
    ++ ")) : null",
  "  return \x7b",
  "    swrKey,",
  "    ...useSWR(swrKey, async () => " ++ op.function ++ "(" ++ ifArgs op "args, "
    ++ "clientOptions), restSwrOptions),",
  "  \x7d",
  "\x7d"]

/-- The function that sends a mutation. -/
def mutator (op : OperationView) : String :=
  match op.args with
  | some args =>
    s!"    async (_: Key, \x7b arg \x7d: \x7b arg: {args} \x7d) => {op.function}(arg, clientOptions),"
  | none => s!"    async () => {op.function}(clientOptions),"

def mutation (op : OperationView) : List String := [
  s!"export function {op.hook}(options?: \x7b",
  "  mutation?: SWRMutationConfiguration<",
  s!"    {result op},",
  "    Error,",
  "    Key,",
  "    " ++ op.args.getD "never",
  "  >",
  "  client?: ClientRequestOptions",
  "\x7d) \x7b",
  "  const \x7b mutation: mutationOptions, client: clientOptions \x7d = options ?? \x7b\x7d",
  "  return useSWRMutation(",
  s!"    {op.cacheKey}(),",
  mutator op,
  "    mutationOptions,",
  "  )",
  "\x7d"]

def operation (doc : List String) (op : OperationView) : List String :=
  "" :: Client.keyFunction "SWR" op ++ "" :: Client.fetcher doc op ++ "" :: doc
    ++ if op.isQuery then query op else mutation op

def lines (v : View) : Checked (List String) := Client.lines v imports operation

end OpenApi.Artifact.Swr
