import OpenApi.Artifact.Query

/-!
Composables for Vue Query. Their arguments may be references.
-/
namespace OpenApi.Artifact.VueQuery

open Client (ifArgs)

def imports : List String := [
  "import \x7b useQuery, useMutation \x7d from '@tanstack/vue-query'",
  "import type \x7b UseQueryOptions, QueryFunctionContext, UseMutationOptions \x7d "
    ++ "from '@tanstack/vue-query'",
  "import \x7b computed, unref \x7d from 'vue'",
  "import type \x7b MaybeRef \x7d from 'vue'"]

def query (doc : List String) (op : OperationView) : List String :=
  let parameter := ifArgs op ("args: MaybeRef<" ++ op.args.getD "" ++ ">, ")
  Query.options "Vue Query" "useQuery" "" "" op ++ doc
    ++ [s!"export function {op.hook}({parameter}options?: \x7b"]
    ++ Query.queryOptions op ++ [
      "  return useQuery(",
      "    computed(() => \x7b",
      "      const \x7b queryKey, queryFn, ...baseOptions \x7d = " ++ op.queryOptions ++ "("
        ++ ifArgs op "unref(args), " ++ "clientOptions)",
      "      return \x7b ...baseOptions, ...queryOptions, queryKey, queryFn \x7d",
      "    \x7d),",
      "  )",
      "\x7d"]

def lines (v : View) : Checked (List String) :=
  Client.lines v imports (Query.operation "Vue Query" query Query.mutation)

end OpenApi.Artifact.VueQuery
