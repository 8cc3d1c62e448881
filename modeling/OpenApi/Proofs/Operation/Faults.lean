import OpenApi.Operation.Parse
import OpenApi.Proofs.Document
import OpenApi.Proofs.Notice

/-!
What reading the operations of a document can fail with. Schemas are recorded by their places and not
looked up, so no node is missed.
-/
namespace OpenApi

open Outcome (Faults)

/-! ### Texts and media types -/

theorem descriptionOf_local (holder : Value) : Local (descriptionOf holder) := by
  refine (holder.get_local _).bind fun v _ => ?_
  split
  · exact .ok
  · exact v.text_local.bind fun _ _ => .ok

theorem firstSuitable_local (entries : Entries) : Local (firstSuitable entries) := by
  fun_induction firstSuitable entries with
  | case1 => exact .ok
  | case2 => exact .ok
  | case3 => exact .ok
  | case4 _ _ _ _ _ ih => exact ih
  | case5 _ _ _ _ _ ih => exact ih
  | case6 => exact .error rfl

theorem pickMediaType_local (content : Value) : Local (pickMediaType content) := by
  refine Faults.bind (.forIn fun name _ => ?_) fun found _ => ?_
  · refine (content.has_local name).bind fun held _ => ?_
    split
    · exact .ok
    · exact .ok
  · dsimp only
    split
    · exact .ok
    · refine content.entries_local.bind fun entries _ => (firstSuitable_local entries).bind fun _ _ => ?_
      split
      · exact .ok
      · exact .ok

theorem mediaSchema_local (content name : Value) (pointer : String) :
    Local (mediaSchema content name pointer) := by
  refine (content.item_local name).bind fun media _ => (media.orEmpty.has_local _).bind fun held _ => ?_
  split
  · exact name.text_local.bind fun _ _ => .ok
  · exact .ok

/-! ### References -/

theorem Document.deref_known (doc v : Value) (pointer : String) : Known (deref doc v pointer) :=
  (deref_local doc v pointer).known

/-! ### Parameters -/

namespace Parameter

theorem parseStyle_local (param : Entries) (pointer : String) (location : Location) :
    Local (parseStyle param pointer location) := by
  unfold parseStyle
  split
  · exact .ok
  · split
    · exact .ok
    · exact (Value.inner_local _).bind fun _ _ => .error rfl

theorem parseFormat_local (param : Entries) (pointer : String) (location : Location) :
    Local (parseFormat param pointer location) := by
  refine (parseStyle_local param pointer location).bind fun style _ => ?_
  dsimp only
  split
  · exact .ok
  · split
    · exact .ok
    · exact (Scalar.inner_local _).bind fun _ _ => .error rfl
  · exact .error rfl

theorem parseSchema_local (param : Entries) (pointer : String) :
    Local (parseSchema param pointer) := by
  unfold parseSchema
  split
  · exact .ok
  · split
    · refine (Value.elements_local _).bind fun names _ => ?_
      split
      · refine (mediaSchema_local _ _ _).bind fun schema _ => ?_
        split
        · exact .ok
        · exact .ok
        · exact .error rfl
      · exact .error rfl
    · refine (Document.inlineSchema?_local _).bind fun schema _ => ?_
      split
      · exact .ok
      · exact .ok

theorem parse_known (doc raw : Value) (pointer : String) : Known (parse doc raw pointer) := by
  refine (Document.deref_known doc raw pointer).bind fun found _ => ?_
  dsimp only
  split
  · split
    · split
      · exact .ok
      · split
        · exact (Value.inner_local _).known.bind fun _ _ => .error rfl
        · refine (parseFormat_local _ _ _).known.bind fun _ _ => ?_
          refine (parseSchema_local _ _).known.bind fun _ _ => ?_
          refine (Value.text_local _).known.bind fun _ _ => ?_
          exact (descriptionOf_local _).known.bind fun _ _ => .ok
    · exact .error rfl
  · exact .error rfl

end Parameter

/-! ### Operations -/

namespace Operation

theorem listed_local (holder : Value) (pointer : String) : Local (listed holder pointer) :=
  (holder.getD_local _ _).bind fun held _ => held.elements_local.bind fun _ _ => .ok

theorem noteFormField_known (doc : Value) (raw : RawParameter) :
    Known (noteFormField doc raw).result := by
  refine Traced.faults_bind (Document.deref_known doc raw.1 raw.2) fun found _ => ?_
  refine Traced.faults_bind (Value.get_local _ _).known fun place _ => ?_
  split
  · exact .ok
  · exact .ok

theorem mergeParameters_known (doc : Value) (acc : List ((String × Location) × Parameter))
    (params : List RawParameter) : Known (mergeParameters doc acc params).result := by
  induction params generalizing acc with
  | nil => exact .ok
  | cons raw rest ih =>
    refine Traced.faults_bind (Parameter.parse_known doc raw.1 raw.2) fun parsed _ => ?_
    cases parsed with
    | some p => exact ih _
    | none => exact Traced.faults_bind (noteFormField_known doc raw) fun _ _ => ih _

theorem noteUndeclared_known (method path : String) (template : List Segment)
    (declared : List String) : Known (noteUndeclared method path template declared).result := by
  unfold noteUndeclared
  induction template with
  | nil => exact .ok
  | cons segment rest ih =>
    refine Traced.faults_bind ?_ fun _ _ => ih
    dsimp only
    split
    · split
      · exact .ok
      · exact .ok
    · exact .ok

theorem parseBody_known (doc operation : Value) (pointer : String) :
    Known (parseBody doc operation pointer) := by
  refine (Value.item_local _ _).known.bind fun raw _ => ?_
  refine (Document.deref_known doc raw _).bind fun request _ => ?_
  refine (Value.get_local _ _).known.bind fun content _ => ?_
  refine (pickMediaType_local _).known.bind fun contentType _ => ?_
  cases contentType with
  | none => exact (Value.get_local _ _).known.bind fun _ _ => .ok
  | some name =>
    refine (mediaSchema_local _ _ _).known.bind fun schema _ => ?_
    exact (Value.get_local _ _).known.bind fun _ _ => .ok

theorem bodyParameter_known (doc : Value) (params : List RawParameter) :
    Known (bodyParameter doc params) := by
  induction params with
  | nil => exact .ok
  | cons raw rest ih =>
    refine (Document.deref_known doc raw.1 raw.2).bind fun found _ => ?_
    dsimp only
    split
    · split
      · exact .ok
      · exact ih
    · exact ih

theorem parseResponse_known (doc : Value) (pointer : String) (status : Scalar) (raw : Value) :
    Known (parseResponse doc pointer status raw) := by
  refine status.text_local.known.bind fun text _ => ?_
  refine (Document.deref_known doc raw _).bind fun response _ => ?_
  refine (descriptionOf_local _).known.bind fun description _ => ?_
  refine (Value.has_local _ _).known.bind fun held _ => ?_
  split
  · exact .ok
  · refine (Value.get_local _ _).known.bind fun content _ => ?_
    refine (pickMediaType_local _).known.bind fun contentType _ => ?_
    cases contentType with
    | none => exact .ok
    | some name => exact (mediaSchema_local _ _ _).known.bind fun schema _ => .ok

theorem parseResponses_known (doc operation : Value) (pointer : String) :
    Known (parseResponses doc operation pointer) := by
  refine (Value.get_local _ _).known.bind fun held _ => ?_
  refine (Value.entries_local _).known.bind fun entries _ => ?_
  exact .mapM fun e _ => parseResponse_known doc pointer e.1 e.2

theorem parse_known (doc : Value) (path : Scalar) (method : String) (operation : Value)
    (pointer : String) (shared : List RawParameter) :
    Known (parse doc path method operation pointer shared).result := by
  refine Traced.faults_bind (listed_local _ _).known fun own _ => ?_
  refine Traced.faults_bind (mergeParameters_known doc _ _) fun merged _ => ?_
  split
  · refine Traced.faults_bind (noteUndeclared_known _ _ _ _) fun _ _ => ?_
    refine Traced.faults_bind (Value.has_local _ _).known fun held _ => ?_
    refine Traced.faults_ite_bind (parseBody_known _ _ _) (bodyParameter_known _ _) fun body => ?_
    refine Traced.faults_bind (Value.get_local _ _).known fun id _ => ?_
    refine Traced.faults_bind (Value.get_local _ _).known fun summary _ => ?_
    refine Traced.faults_bind (descriptionOf_local _).known fun description _ => ?_
    refine Traced.faults_bind (Value.getD_local _ _ _).known fun tags _ => ?_
    refine Traced.faults_bind (Value.elements_local _).known fun tags _ => ?_
    refine Traced.faults_bind (Value.get_local _ _).known fun deprecated _ => ?_
    refine Traced.faults_bind (Value.get_local _ _).known fun security _ => ?_
    refine Traced.faults_bind (Value.getD_local _ _ _).known fun security _ => ?_
    exact Traced.faults_bind (parseResponses_known _ _ _) fun responses _ => .ok
  · exact .error rfl

theorem parseItem_known (doc : Value) (path : Scalar) (raw : Value) :
    Known (parseItem doc path raw).result := by
  refine Traced.faults_bind path.text_local.known fun text _ => ?_
  refine Traced.faults_bind (Document.deref_known doc raw _) fun item _ => ?_
  refine Traced.faults_bind (listed_local _ _).known fun shared _ => ?_
  refine Traced.faults_bind (Value.entries_local _).known fun entries _ => ?_
  rw [Traced.result_mapM]
  exact .mapM fun e _ => parse_known doc path e.1 e.2 _ shared

theorem parseAll_known (doc : Value) : Known (parseAll doc).result := by
  refine Traced.faults_bind (Document.paths_local doc).known fun paths _ => ?_
  refine Traced.faults_bind paths.entries_local.known fun entries _ => ?_
  refine Traced.faults_bind ?_ fun parsed _ => .ok
  rw [Traced.result_mapM]
  exact .mapM fun e _ => parseItem_known doc e.1 e.2

end Operation
end OpenApi
