import OpenApi.Artifact.Client

/-!
What the query libraries of one family have in common: the options of a query, and mutations.
-/
namespace OpenApi.Artifact.Query

open Client (parameter ifArgs result title)

/-- The options of a query. The object is closed in `opening` and `closing`, and `hook` is what it
is made for. -/
def options (library hook opening closing : String) (op : OperationView) : List String := [
  "",
  "/**",
  s!" * Returns {library} query options for {title op}",
  " *",
  s!" * Use with prefetchQuery, ensureQueryData, or directly with {hook}.",
  " */",
  s!"export function {op.queryOptions}({parameter op}clientOptions?: ClientRequestOptions) \x7b",
  s!"  return {opening}\x7b",
  s!"    queryKey: {op.cacheKey}(" ++ ifArgs op "args" ++ "),",
  "    queryFn(\x7b signal \x7d: QueryFunctionContext) \x7b",
  s!"      return {op.function}(" ++ ifArgs op "args, " ++ "\x7b",
  "        ...clientOptions,",
  "        init: \x7b ...clientOptions?.init, signal \x7d,",
  "      \x7d)",
  "    \x7d,",
  s!"  \x7d{closing}",
  "\x7d",
  ""]

/-- The line that tells how a mutation is sent; `clientOptions` are the options of the client. -/
def mutationFn (clientOptions : String) (op : OperationView) : String :=
  match op.args with
  | some args => s!"mutationFn: async (args: {args}) => {op.function}(args, {clientOptions}),"
  | none => s!"mutationFn: async () => {op.function}({clientOptions}),"

/-- The mutation of a hook that takes its options as an object. -/
def mutation (op : OperationView) : List String := [
  s!"export function {op.hook}(options?: \x7b",
  "  mutation?: UseMutationOptions<",
  s!"    {result op},",
  "    Error,",
  "    " ++ op.args.getD "void",
  "  >",
  "  client?: ClientRequestOptions",
  "\x7d) \x7b",
  "  const \x7b mutation: mutationOptions, client: clientOptions \x7d = options ?? \x7b\x7d",
  "  return useMutation(\x7b",
  "    ...mutationOptions,",
  s!"    mutationKey: {op.cacheKey}(),",
  "    " ++ mutationFn "clientOptions" op,
  "  \x7d)",
  "\x7d"]

/-- The options that a query hook takes as an object. -/
def queryOptions (op : OperationView) : List String := [
  s!"  query?: Partial<UseQueryOptions<{result op}, Error>>",
  "  client?: ClientRequestOptions",
  "\x7d) \x7b",
  "  const \x7b query: queryOptions, client: clientOptions \x7d = options ?? \x7b\x7d"]

/-- The functions of an operation, with its hook behind them. -/
def operation (library : String) (query : List String → OperationView → List String)
    (mutation : OperationView → List String) (doc : List String) (op : OperationView) :
    List String :=
  "" :: Client.keyFunction library op ++ "" :: Client.fetcher doc op
    ++ if op.isQuery then query doc op else "" :: doc ++ mutation op

end OpenApi.Artifact.Query
