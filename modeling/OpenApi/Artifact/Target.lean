/-!
The kinds of artifact that can be asked for.
-/
namespace OpenApi

inductive Target where
  | routes
  | handlers
  | types
  | rpc
  | swr
  | tanstackQuery
  | vueQuery
  | svelteQuery
  | docs
deriving DecidableEq, Repr

def Target.text : Target → String
  | .routes => "routes"
  | .handlers => "handlers"
  | .types => "types"
  | .rpc => "rpc"
  | .swr => "swr"
  | .tanstackQuery => "tanstack-query"
  | .vueQuery => "vue-query"
  | .svelteQuery => "svelte-query"
  | .docs => "docs"

/-- All targets, in the order in which artifacts are made. -/
def Target.all : List Target :=
  [.routes, .handlers, .types, .rpc, .swr, .tanstackQuery, .vueQuery, .svelteQuery, .docs]

def Target.ofText? (s : String) : Option Target := Target.all.find? (·.text == s)

/-- The file of a target that is asked for without one. -/
def Target.defaultFile (t : Target) : String :=
  t.text ++ if t == .docs then ".md" else ".ts"

end OpenApi
