import OpenApi.Disk.Error
import OpenApi.Json.Error
import OpenApi.Parameter.Style
import OpenApi.Value.Text

/-!
Everything that can go wrong in a run, by cause, with the wording of each cause in one place. What a
cause calls `shown` is the form in which a message gives a value.
-/
namespace OpenApi

/-- Why a text could not be read as data. -/
inductive ParseError where
  | json (e : Json.Error)
  | yaml
deriving Repr

/-- What is said about a file that could not be read as data. -/
def ParseError.message (path : String) : ParseError → String
  | .json e => s!"cannot parse {path}: {e.message}"
  | .yaml => s!"cannot parse {path}"

/-- What is wrong with the document that is read. -/
inductive DocumentFault where
  | unreadable (path : String) (e : DiskError)
  | malformed (path : String) (e : ParseError)
  | notAMapping (source : String)
  | noVersion (source : String)
  | pathsNotAMapping (source : String)
deriving Repr

def DocumentFault.message : DocumentFault → String
  | .unreadable path e => s!"cannot read {path}: {e.message}"
  | .malformed path e => e.message path
  | .notAMapping source => s!"{source}: top level must be a mapping"
  | .noVersion source => s!"{source}: missing 'openapi' or 'swagger' version field"
  | .pathsNotAMapping source => s!"{source}: 'paths' must be a mapping"

/-- What is wrong with the configuration. -/
inductive ConfigFault where
  | unreadable (path : String) (e : DiskError)
  | malformed (path : String) (e : ParseError)
  | notAMapping
  | unknownKeys (keys : List String)
  | targetsNotAMapping
  | unknownTargets (names known : List String)
  | unknownPolicy (known : List String)
  | workers
  | namingNotAMapping
  | unknownWordSet (shown : String)
  | wordSetNotAList (shown : String)
  | wordSetsNotAMapping
  | emptySuffix
  | noInput (path : String)
deriving Repr

def ConfigFault.message : ConfigFault → String
  | .unreadable path e => s!"cannot read {path}: {e.message}"
  | .malformed path e => e.message path
  | .notAMapping => "configuration must be a mapping"
  | .unknownKeys keys => "unknown configuration keys: " ++ ", ".intercalate keys
  | .targetsNotAMapping => "'targets' must be a mapping of target name to output path"
  | .unknownTargets names known =>
    "unknown targets: " ++ ", ".intercalate names ++ " (known: " ++ ", ".intercalate known ++ ")"
  | .unknownPolicy known => "'allof_policy' must be one of: " ++ ", ".intercalate known
  | .workers => "'max_workers' must be a positive integer"
  | .namingNotAMapping => "'naming' must be a mapping"
  | .unknownWordSet shown => s!"unknown reserved-word set {shown}"
  | .wordSetNotAList shown => s!"reserved-word set {shown} must be a list of words"
  | .wordSetsNotAMapping => "'naming.reserved_words' must be a list or a mapping"
  | .emptySuffix => "'naming.reserved_suffix' must not be empty"
  | .noInput path => s!"{path}: 'input' is required"

/-- Why a schema location could not be resolved. -/
inductive SchemaFault where
  | notLocal
  | fragmentWithoutSlash
  | noValueAt (token : String)
  | refNotText
  | circularChain
  | neverResolved
  | unknownNode
  | chainWithoutSchema
  | targetNeverCompleted (target : String)
  | containsItself
  | notAnObject
  | emptyComposition (keyword : String)
  | enumNotAList
  | badRequired
  | badDiscriminator
  | stillComposing (member target : String)
  | targetWithoutName (target : String)
deriving DecidableEq, Repr

def SchemaFault.message : SchemaFault → String
  | .notLocal => "only local references ('#/...') are supported"
  | .fragmentWithoutSlash => "reference fragment must start with '/'"
  | .noValueAt token => s!"no value at token {Text.quoted token}"
  | .refNotText => "$ref must be a string"
  | .circularChain => "circular $ref chain"
  | .neverResolved => "pointer was never resolved"
  | .unknownNode => "unknown schema node"
  | .chainWithoutSchema => "reference chain never reaches a schema"
  | .targetNeverCompleted target => s!"recursion target {target} was never completed"
  | .containsItself => "schema contains itself without a $ref"
  | .notAnObject => "schema must be an object"
  | .emptyComposition keyword => s!"{keyword} must be a non-empty list"
  | .enumNotAList => "enum must be a list"
  | .badRequired => "required must be a list of property names"
  | .badDiscriminator => "discriminator needs a propertyName"
  | .stillComposing member target =>
    s!"allOf member {member} refers back to {target}, which is still being composed"
  | .targetWithoutName target => s!"recursion target {target} has no type name"

/-- Why a parameter has no wire format. -/
inductive ParameterFault where
  | noNameOrPlace
  | unknownLocation (shown : String)
  | unknownStyle (shown : String)
  | unknownCollectionFormat (shown : String)
  | manyMediaTypes
  | noSchema
  | misplaced (style : Style) (location : Location)
  | needsObject (style : Style) (explode : Bool)
  | undefinedDeep (style : Style) (explode : Bool)
  | unserializable (style : Style) (explode : Bool) (kind : String)
  | onlyArrays (style : Style) (explode : Bool)
  | nestedItems (style : Style) (explode : Bool)
  | nestedMember (style : Style) (explode : Bool) (shown : String)
  | ambiguousObject (style : Style) (explode : Bool)
  | undeclaredKeys (style : Style) (explode : Bool)
  | explodedCookie (style : Style) (explode : Bool) (shape : String)
  | deepItems
  | deepMember (kind : String)
deriving Repr

/-- How a message names a style with its explode flag. -/
def styleText (style : Style) (explode : Bool) : String :=
  s!"style '{style.text}' with explode=" ++ if explode then "true" else "false"

def ParameterFault.message : ParameterFault → String
  | .noNameOrPlace => "parameter needs 'name' and 'in'"
  | .unknownLocation shown => s!"unknown parameter location {shown}"
  | .unknownStyle shown => s!"unknown parameter style {shown}"
  | .unknownCollectionFormat shown => s!"unsupported collectionFormat {shown}"
  | .manyMediaTypes => "parameter 'content' must hold exactly one media type"
  | .noSchema => "parameter declares neither schema nor content"
  | .misplaced style location =>
    s!"style '{style.text}' is not allowed in {location.text} parameters"
  | .needsObject s e => styleText s e ++ " needs an object schema"
  | .undefinedDeep s e => styleText s e ++ " is undefined; deepObject requires explode=true"
  | .unserializable s e kind => styleText s e ++ s!" cannot serialize a {kind} schema"
  | .onlyArrays s e => styleText s e ++ " only applies to arrays"
  | .nestedItems s e => styleText s e ++ " cannot serialize arrays of non-scalar items"
  | .nestedMember s e shown =>
    styleText s e ++ s!" cannot serialize nested value {shown}; use deepObject"
  | .ambiguousObject s e =>
    styleText s e ++ " on an object is ambiguous (';p=k1,v1' has no defined decoding)"
  | .undeclaredKeys s e =>
    styleText s e ++ " on an object needs declared properties to find its keys"
  | .explodedCookie s e shape => styleText s e ++ s!" cannot serialize a cookie {shape}"
  | .deepItems => "deepObject arrays must hold scalar items"
  | .deepMember kind => s!"deepObject cannot serialize a {kind} member"

/-- Why a wire text does not decode. -/
inductive WireFault where
  | noLabelDot
  | noMatrixSemicolon
  | malformedEntry (text : String)
  | malformedPath (key : String)
  | valueAndObject (key : String)
  | badPercent (raw : String)
  | badJson (e : Json.Error)
  | notOneOf (text shown : String)
  | noMember (text : String)
  | notInteger (text : String)
  | notNumber (text : String)
  | notBoolean (text : String)
  | notNull (text : String)
  | oddPairs
deriving Repr

def WireFault.message : WireFault → String
  | .noLabelDot => "label value must start with '.'"
  | .noMatrixSemicolon => "matrix value must start with ';'"
  | .malformedEntry text => s!"malformed key/value entry {Text.quoted text}"
  | .malformedPath key => s!"malformed bracket path {Text.quoted key}"
  | .valueAndObject key => s!"{Text.quoted key} is both a value and an object"
  | .badPercent raw => s!"invalid percent-encoding in {Text.quoted raw}"
  | .badJson e => s!"invalid JSON: {e.message}"
  | .notOneOf text shown => s!"{Text.quoted text} is not one of {shown}"
  | .noMember text => s!"{Text.quoted text} matches no union member"
  | .notInteger text => s!"{Text.quoted text} is not an integer"
  | .notNumber text => s!"{Text.quoted text} is not a number"
  | .notBoolean text => s!"{Text.quoted text} is not a boolean"
  | .notNull text => s!"{Text.quoted text} is not null"
  | .oddPairs => "object value needs key,value pairs"

/-- Why an artifact could not be produced. -/
inductive ArtifactFault where
  | unknownTarget
  | unnamed (cause : String)
  | unwritable (path : String) (e : DiskError)
deriving Repr

def ArtifactFault.message : ArtifactFault → String
  | .unknownTarget => "unknown target"
  | .unnamed cause => s!"no name registered for {Text.quoted cause}"
  | .unwritable path e => s!"cannot write {path}: {e.message}"

inductive Fault where
  | document (cause : DocumentFault)
  | config (cause : ConfigFault)
  | schema (pointer : String) (cause : SchemaFault)
  | parameter (pointer : String) (cause : ParameterFault)
  | artifact (target : String) (cause : ArtifactFault)
  | wire (name : String) (cause : WireFault)
  /-- A value that has no wire text was given to a parameter. -/
  | notSerializable (name kind shown : String)
  /-- An item holds the delimiter of its own array. -/
  | delimiterInItem (name : String)
  | noName (scope shown : String)
  /-- Percent-decoded octets that are not UTF-8. -/
  | notUtf8
  /-- A value of a kind that the place where it stands does not take. -/
  | wrongKind
  /-- A bound on the number of steps was reached. -/
  | exhausted
deriving Repr

/-- The message of a fault, for those that have one. -/
def Fault.message? : Fault → Option String
  | .document cause => some cause.message
  | .config cause => some cause.message
  | .schema pointer cause => some s!"{pointer}: {cause.message}"
  | .parameter pointer cause => some s!"{pointer}: {cause.message}"
  | .artifact target cause => some s!"{target}: {cause.message}"
  | .wire name cause => some s!"parameter {Text.quoted name}: {cause.message}"
  | .notSerializable name kind shown =>
    some s!"parameter {Text.quoted name}: cannot serialize {kind} {shown}"
  | .delimiterInItem name =>
    some s!"parameter {Text.quoted name}: spaceDelimited items cannot contain spaces"
  | .noName scope shown => some s!"no {scope} name registered for {shown}"
  | .notUtf8 | .wrongKind | .exhausted => none

/-- Is a fault one of the document, the settings or the run, and so told to whoever started it? -/
def Fault.isReported : Fault → Bool
  | .document _ | .config _ | .schema .. | .parameter .. | .artifact .. | .wire .. => true
  | _ => false

/-- A computation that may meet a fault. -/
abbrev Checked (α : Type) := Except Fault α

end OpenApi
