import OpenApi.Disk.Tree
import OpenApi.Main
import OpenApi.View.Data
import OpenApi.Proofs.Api.Build
import OpenApi.Proofs.Artifact.Comments
import OpenApi.Proofs.Name.Reserved
import OpenApi.Proofs.Operation.Merging
import OpenApi.Proofs.Operation.Template
import OpenApi.Proofs.Schema.Addresses
import OpenApi.Proofs.Schema.Bounds
import OpenApi.Proofs.Schema.Cycles
import OpenApi.Proofs.Schema.Intersection
import OpenApi.Proofs.Schema.SoleMember
import OpenApi.Proofs.TypeScript.Quoting
import OpenApi.Proofs.Types.Aliases
import OpenApi.Proofs.Types.Nullability
import OpenApi.Proofs.Wire.Carried
import OpenApi.Proofs.Wire.Conforms
import OpenApi.Proofs.Wire.Content
import OpenApi.Proofs.Wire.Injective
import OpenApi.Proofs.Wire.Members
import OpenApi.Proofs.Wire.Number
import OpenApi.Proofs.Wire.Paths
import OpenApi.Proofs.Wire.Reorder
import OpenApi.Proofs.Wire.Vacant
