import OpenApi.Artifact.Client

/-!
Plain functions that send requests.
-/
namespace OpenApi.Artifact.Rpc

def lines (v : View) : Checked (List String) :=
  Client.lines v [] fun doc op => "" :: Client.fetcher doc op

end OpenApi.Artifact.Rpc
