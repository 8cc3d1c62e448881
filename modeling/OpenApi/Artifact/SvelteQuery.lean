import OpenApi.Artifact.Query

/-!
Functions for Svelte Query. Arguments and options are given as functions.
-/
namespace OpenApi.Artifact.SvelteQuery

open Client (ifArgs result)

def imports : List String := [
  "import \x7b createQuery, createMutation, queryOptions \x7d from '@tanstack/svelte-query'",
  "import type \x7b",
  "  CreateQueryOptions,",
  "  QueryFunctionContext,",
  "  CreateMutationOptions,",
  "\x7d from '@tanstack/svelte-query'"]

def query (doc : List String) (op : OperationView) : List String :=
  let args := op.args.toList.map fun args => s!"  args: () => {args},"
  Query.options "Svelte Query" "createQuery" "queryOptions(" ")" op ++ doc
    ++ [s!"export function {op.createHook}("] ++ args ++ [
      "  options?: () => \x7b",
      s!"    query?: Partial<CreateQueryOptions<{result op}, Error>>",
      "    client?: ClientRequestOptions",
      "  \x7d,",
      ") \x7b",
      "  return createQuery(() => \x7b",
      "    const opts = options?.()",
      "    return \x7b ..." ++ op.queryOptions ++ "(" ++ ifArgs op "args(), "
        ++ "opts?.client), ...opts?.query \x7d",
      "  \x7d)",
      "\x7d"]

def mutation (op : OperationView) : List String := [
  s!"export function {op.createHook}(",
  "  options?: () => \x7b",
  "    mutation?: CreateMutationOptions<",
  s!"      {result op},",
  "      Error,",
  "      " ++ op.args.getD "void",
  "    >",
  "    client?: ClientRequestOptions",
  "  \x7d,",
  ") \x7b",
  "  return createMutation(() => \x7b",
  "    const opts = options?.()",
  "    return \x7b",
  "      ...opts?.mutation,",
  s!"      mutationKey: {op.cacheKey}(),",
  "      " ++ Query.mutationFn "opts?.client" op,
  "    \x7d",
  "  \x7d)",
  "\x7d"]

def lines (v : View) : Checked (List String) :=
  Client.lines v imports (Query.operation "Svelte Query" query mutation)

end OpenApi.Artifact.SvelteQuery
