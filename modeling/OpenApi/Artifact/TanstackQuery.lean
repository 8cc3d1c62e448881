import OpenApi.Artifact.Query

/-!
Hooks for TanStack Query.
-/
namespace OpenApi.Artifact.TanstackQuery

open Client (parameter ifArgs)

def imports : List String := [
  "import \x7b useQuery, useMutation \x7d from '@tanstack/react-query'",
  "import type \x7b",
  "  UseQueryOptions,",
  "  QueryFunctionContext,",
  "  UseMutationOptions,",
  "\x7d from '@tanstack/react-query'"]

def query (doc : List String) (op : OperationView) : List String :=
  Query.options "TanStack Query" "useQuery" "" "" op ++ doc
    ++ [s!"export function {op.hook}({parameter op}options?: \x7b"]
    ++ Query.queryOptions op ++ [
      "  const \x7b queryKey, queryFn, ...baseOptions \x7d = " ++ op.queryOptions ++ "("
        ++ ifArgs op "args, " ++ "clientOptions)",
      "  return useQuery(\x7b ...baseOptions, ...queryOptions, queryKey, queryFn \x7d)",
      "\x7d"]

def lines (v : View) : Checked (List String) :=
  Client.lines v imports (Query.operation "TanStack Query" query Query.mutation)

end OpenApi.Artifact.TanstackQuery
