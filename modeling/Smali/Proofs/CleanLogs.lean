import Smali.Proofs.Company
import Smali.Proofs.Overheard

/-!
# Clean logs

What the semantic checks promise about the calls of a reading, without any mention of the reader:
the types in them are what they have to be, no method without code has any, and no member is told
twice. A call passes the checks at a site exactly if it keeps these promises there.
-/

namespace Smali

/-! ## Types inside a value -/

/-- A type that has to be an object type: the owner of an enum constant, or the type of a nested
annotation, at any depth in a value. -/
inductive Value.Names : Value → TypeName → Prop where
  /-- The owner of an enum constant. -/
  | owner {owner : TypeName} {name : Text} {type : TypeName} :
    Names (.enumeration owner name type) owner
  /-- In an element of an array. -/
  | element {values : List Value} {v : Value} {type : TypeName} (hv : v ∈ values)
    (h : Names v type) : Names (.array values) type
  /-- The type of a nested annotation. -/
  | nested {type : TypeName} {elements : List (Text × Value)} :
    Names (.annotated type elements) type
  /-- In an element of a nested annotation. -/
  | inside {outer : TypeName} {elements : List (Text × Value)} {e : Text × Value}
    {type : TypeName} (he : e ∈ elements) (h : Names e.2 type) :
    Names (.annotated outer elements) type

namespace Value

/-- Nothing is wrong with values exactly if nothing is wrong with any of them. -/
theorem objectionsAll_eq_nil_iff {values : List Value} :
    objectionsAll values = [] ↔ ∀ v ∈ values, v.objections = [] := by
  induction values with
  | nil => simp [objectionsAll]
  | cons v values ih => rw [objectionsAll, List.append_eq_nil_iff, ih, List.forall_mem_cons]

/-- The same for the values of elements. -/
theorem objectionsElements_eq_nil_iff {elements : List (Text × Value)} :
    objectionsElements elements = [] ↔ ∀ e ∈ elements, e.2.objections = [] := by
  induction elements with
  | nil => simp [objectionsElements]
  | cons e elements ih =>
    rw [objectionsElements, List.append_eq_nil_iff, ih, List.forall_mem_cons]

/-- There are no objections to a value without types in it. -/
theorem objections_of_names {v : Value} (h : ∀ type, v.Names type → type.isObject = true) :
    v.objections = [] := by
  match v with
  | .enumeration owner name type =>
    rw [objections, if_pos (h owner .owner)]
  | .array values =>
    refine objectionsAll_eq_nil_iff.mpr fun v hv => ?_
    exact objections_of_names fun type hnames => h type (.element hv hnames)
  | .annotated type elements =>
    rw [objections, if_pos (h type .nested), List.nil_append]
    refine objectionsElements_eq_nil_iff.mpr fun ⟨name, v⟩ he => ?_
    have hsize : sizeOf v < sizeOf elements := by
      have hmem := List.sizeOf_lt_of_mem he
      rw [Prod.mk.sizeOf_spec] at hmem
      omega
    exact objections_of_names fun type hnames => h type (.inside he hnames)
  | .int _ | .long _ | .short _ | .byte _ | .float _ | .double _ | .string _ | .char _ | .bool _
  | .null | .typeName _ | .field _ _ _ | .method _ _ _ => rfl

/-- There are no objections to a value exactly if all those types in it are object types. -/
theorem objections_eq_nil_iff {v : Value} :
    v.objections = [] ↔ ∀ type, v.Names type → type.isObject = true := by
  refine ⟨fun h type hnames => ?_, objections_of_names⟩
  induction hnames with
  | owner =>
    by_contra hobject
    rw [objections, if_neg hobject] at h
    exact List.cons_ne_nil _ _ h
  | element hv _ ih => exact ih (objectionsAll_eq_nil_iff.mp h _ hv)
  | nested =>
    by_contra hobject
    rw [objections, if_neg hobject] at h
    exact List.cons_ne_nil _ _ h
  | inside he _ ih =>
    rw [objections, List.append_eq_nil_iff] at h
    exact ih (objectionsElements_eq_nil_iff.mp h.2 _ he)

end Value

/-! ## Calls -/

namespace Call

/-- The type that a call names, if it has to be an object type. -/
def objectType? : Call → Option TypeName
  | .header type _ | .superType type | .implements type | .annotationStart _ type
  | .subannotationStart _ type | .catching type _ _ _ => some type
  | _ => none

/-- The initial value of a field, or the value of an annotation element. -/
def value? : Call → Option Value
  | .field _ _ _ initial => initial
  | .value _ v => some v
  | _ => none

/-- Whether a call tells of code, which abstract and native methods do not have. -/
def tellsCode : Call → Bool
  | .registers _ | .locals _ | .label _ | .instruction _ | .catching _ _ _ _ | .catchAll _ _ _ =>
    true
  | _ => false

/-- The member that a call declares. -/
def member? : Call → Option Member
  | .field name _ _ _ => some (.field name)
  | .method name _ signature => some (.method name signature)
  | _ => none

/-- The name of the field that a call declares. -/
def fieldName? : Call → Option Text
  | .field name _ _ _ => some name
  | _ => none

/-- The name and the descriptor of the method that a call declares. -/
def methodName? : Call → Option (Text × Text)
  | .method name _ signature => some (name, signature.descriptor)
  | _ => none

/-- A call with nothing wrong in itself. -/
structure IsChecked (call : Call) : Prop where
  /-- Classes, interfaces, annotations and exceptions are object types. -/
  type : ∀ type ∈ call.objectType?, type.isObject = true
  /-- A field can start with its initial value. -/
  initial : ∀ name access type v, call = .field name access type (some v) →
    v.isAssignableTo type = true
  /-- So are the owners of enum constants and nested annotations, at any depth. -/
  named : ∀ v ∈ call.value?, ∀ type, v.Names type → type.isObject = true
  /-- An initializer returns nothing. -/
  result : ∀ name access signature, call = .method name access signature →
    name = "<init>".toList ∨ name = "<clinit>".toList → signature.result.isVoid = true
  /-- The initializer of the class has no parameters. -/
  params : ∀ access signature, call = .method "<clinit>".toList access signature →
    signature.params = []

/-- Most calls have nothing but a type that could be wrong. -/
theorem isChecked_iff_type {call : Call} (hfield : call.fieldName? = none)
    (hmethod : call.methodName? = none) (hvalue : call.value? = none) :
    call.IsChecked ↔ ∀ type ∈ call.objectType?, type.isObject = true := by
  refine ⟨IsChecked.type, fun h => ⟨h, ?_, ?_, ?_, ?_⟩⟩
  · rintro name access type v rfl
    exact absurd hfield (Option.some_ne_none _)
  · exact fun v hv => absurd (hvalue.symm.trans hv) (Option.some_ne_none v).symm
  · rintro name access signature rfl
    exact absurd hmethod (Option.some_ne_none _)
  · rintro access signature rfl
    exact absurd hmethod (Option.some_ne_none _)

/-- What could be wrong with a field. -/
theorem isChecked_field_iff {name : Text} {access : Access} {type : TypeName}
    {initial : Option Value} :
    (field name access type initial).IsChecked ↔ ∀ v ∈ initial,
      v.isAssignableTo type = true ∧ ∀ type, v.Names type → type.isObject = true := by
  constructor
  · intro h v hv
    obtain rfl := Option.mem_def.mp hv
    exact ⟨h.initial name access type v rfl, h.named v rfl⟩
  · intro h
    refine ⟨nofun, ?_, fun v hv => (h v hv).2, nofun, nofun⟩
    rintro _ _ _ v ⟨⟩
    exact (h v rfl).1

/-- What could be wrong with a method. -/
theorem isChecked_method_iff {name : Text} {access : Access} {signature : Signature} :
    (method name access signature).IsChecked ↔
      (name = "<init>".toList ∨ name = "<clinit>".toList → signature.result.isVoid = true) ∧
      (name = "<clinit>".toList → signature.params = []) := by
  constructor
  · intro h
    refine ⟨h.result name access signature rfl, ?_⟩
    rintro rfl
    exact h.params access signature rfl
  · rintro ⟨hresult, hparams⟩
    refine ⟨nofun, nofun, nofun, ?_, ?_⟩
    · rintro _ _ _ ⟨⟩
      exact hresult
    · intro _ _ heq
      cases heq
      exact hparams rfl

/-- What could be wrong with the value of an annotation element. -/
theorem isChecked_value_iff {name : Text} {v : Value} :
    (value name v).IsChecked ↔ ∀ type, v.Names type → type.isObject = true :=
  ⟨fun h => h.named v rfl, fun h => ⟨nofun, nofun, fun _ hv => Option.some.inj hv ▸ h, nofun, nofun⟩⟩

/-- A call that no check looks at. -/
structure IsHarmless (call : Call) : Prop where
  /-- Nothing is wrong with it. -/
  checked : call.IsChecked
  /-- It declares nothing. -/
  member : call.member? = none
  /-- It is not about code. -/
  code : call.tellsCode = false

/-- No check looks at the end of a scope. -/
theorem harmless_finish : finish.IsHarmless :=
  ⟨(isChecked_iff_type rfl rfl rfl).mpr fun _ htype => absurd htype (Option.not_mem_none _), rfl,
    rfl⟩

/-- Nor at a comment. -/
theorem harmless_of_isComment {call : Call} (h : call.isComment = true) : call.IsHarmless := by
  cases call <;> first
    | exact ⟨(isChecked_iff_type rfl rfl rfl).mpr fun _ htype =>
        absurd htype (Option.not_mem_none _), rfl, rfl⟩
    | exact absurd h Bool.false_ne_true

end Call

/-- Whether a method with some flags may have code. -/
def Access.mayHaveCode (access : Access) : Bool := !(access.has .isAbstract || access.has .isNative)

/-! ## Logs -/

/-- A visitor was handed out for a method with some flags. -/
def OpensMethod (log : List Heard) (v : Nat) (access : Access) : Prop :=
  ∃ h ∈ log, h.opened = some v ∧ ∃ name signature, h.call = .method name access signature

/-- A log in which nothing is wrong. -/
structure IsClean (log : List Heard) : Prop where
  /-- Nothing is wrong with any call in itself. -/
  checked : ∀ h ∈ log, h.call.IsChecked
  /-- No visitor of an abstract or native method hears of code. -/
  code : ∀ h ∈ log, h.call.tellsCode = true → ∀ access, OpensMethod log h.who access →
    access.mayHaveCode = true
  /-- No field is told twice. -/
  fields : (log.filterMap fun h => h.call.fieldName?).Nodup
  /-- No method is told twice. -/
  methods : (log.filterMap fun h => h.call.methodName?).Nodup

/-- A visitor of a method stays one when the log goes on. -/
theorem OpensMethod.mono {log log' : List Heard} (hsub : log ⊆ log') {v : Nat} {access : Access}
    (h : OpensMethod log v access) : OpensMethod log' v access := by
  obtain ⟨opener, hopener, hcall⟩ := h
  exact ⟨opener, hsub hopener, hcall⟩

namespace IsClean

variable {log log' : List Heard}

/-- To leave out calls leaves a log clean. -/
theorem sublist (h : IsClean log') (hsub : log.Sublist log') : IsClean log where
  checked e he := h.checked e (hsub.subset he)
  code e he hcode access hopens := h.code e (hsub.subset he) hcode access (hopens.mono hsub.subset)
  fields := h.fields.sublist (hsub.filterMap _)
  methods := h.methods.sublist (hsub.filterMap _)

/-- The last call declares no member that another one has declared. -/
theorem member_ne {last : Heard} (h : IsClean (log ++ [last])) {e : Heard} (he : e ∈ log)
    {m : Member} (hm : e.call.member? = some m) : last.call.member? ≠ some m := by
  intro hlast
  have hnodup : ∀ {α : Type} {f : Call → Option α} {a : α},
      ((log ++ [last]).filterMap fun h => f h.call).Nodup → f e.call = some a →
        f last.call ≠ some a := by
    intro α f a hnodup ha hlast
    rw [List.filterMap_append] at hnodup
    exact (List.nodup_append.mp hnodup).2.2 a (List.mem_filterMap.mpr ⟨e, he, ha⟩) a
      (List.mem_filterMap.mpr ⟨last, List.mem_singleton_self _, hlast⟩) rfl
  cases m with
  | field name =>
    have hfield : ∀ {call : Call}, call.member? = some (.field name) →
        call.fieldName? = some name := by
      intro call hcall
      cases call <;> cases hcall
      rfl
    exact hnodup h.fields (hfield hm) (hfield hlast)
  | method name signature =>
    have hmethod : ∀ {call : Call}, call.member? = some (.method name signature) →
        call.methodName? = some (name, signature.descriptor) := by
      intro call hcall
      cases call <;> cases hcall
      rfl
    exact hnodup h.methods (hmethod hm) (hmethod hlast)

/-- A call that no check looks at leaves a log clean. -/
theorem snoc (h : IsClean log) {last : Heard} (hlast : last.call.IsHarmless) :
    IsClean (log ++ [last]) := by
  have hmember : last.call.fieldName? = none ∧ last.call.methodName? = none := by
    have hnone := hlast.member
    cases hcall : last.call <;> first | exact ⟨rfl, rfl⟩ | (rw [hcall] at hnone; cases hnone)
  have hopens : ∀ {v access}, OpensMethod (log ++ [last]) v access → OpensMethod log v access := by
    rintro v access ⟨opener, hopener, hv, name, signature, hcall⟩
    rcases List.mem_append.mp hopener with hopener | hopener
    · exact ⟨opener, hopener, hv, name, signature, hcall⟩
    · obtain rfl := List.mem_singleton.mp hopener
      rw [hcall] at hmember
      cases hmember.2
  have hkeep : ∀ {α : Type} {f : Call → Option α}, f last.call = none →
      (log ++ [last]).filterMap (fun h => f h.call) = log.filterMap fun h => f h.call := by
    intro α f hf
    simp [List.filterMap_append, hf]
  refine ⟨?_, fun e he hcode access hv => ?_, ?_, ?_⟩
  · exact List.forall_mem_append.mpr ⟨h.checked, List.forall_mem_singleton.mpr hlast.checked⟩
  · rcases List.mem_append.mp he with he | he
    · exact h.code e he hcode access (hopens hv)
    · obtain rfl := List.mem_singleton.mp he
      exact absurd hcode (Bool.eq_false_iff.mp hlast.code)
  · rw [hkeep hmember.1]
    exact h.fields
  · rw [hkeep hmember.2]
    exact h.methods

/-- Whether a log is clean does not depend on the numbers of visitors. -/
theorem of_renumber {f : Nat → Nat} (h : IsClean (log.map (Heard.renumber f))) : IsClean log where
  checked e he := h.checked (e.renumber f) (List.mem_map_of_mem he)
  code e he hcode access hopens := by
    obtain ⟨opener, hopener, hwho, hcall⟩ := hopens
    refine h.code (e.renumber f) (List.mem_map_of_mem he) hcode access
      ⟨opener.renumber f, List.mem_map_of_mem hopener, ?_, hcall⟩
    rw [Heard.renumber, hwho]
    rfl
  fields := by
    have hfields := h.fields
    rwa [List.filterMap_map] at hfields
  methods := by
    have hmethods := h.methods
    rwa [List.filterMap_map] at hmethods

end IsClean

/-! ## Checks -/

namespace Site

/-- A call passes the checks at a site exactly if nothing is wrong with it in itself, it declares
a new member, and it is not about the code of a method that may not have code. -/
theorem allows_iff {s : Site} {call : Call} :
    s.allows call = true ↔ call.IsChecked ∧ (∀ m ∈ call.member?, m ∉ s.declared) ∧
      (call.tellsCode = true → s.allowsCode = true) := by
  have hnew : ∀ m : Member, (!s.declared.contains m) = true ↔ m ∉ s.declared := by simp
  cases call with
  | field name access type initial =>
    rw [Call.isChecked_field_iff]
    simp only [allows, Bool.and_eq_true, hnew, Call.member?, Call.tellsCode]
    cases initial with
    | none => simp
    | some v => simp [List.isEmpty_iff, Value.objections_eq_nil_iff]
  | method name access signature =>
    rw [Call.isChecked_method_iff]
    unfold allows
    dsimp only
    generalize "<init>".toList = initializer
    generalize "<clinit>".toList = ofClass
    have hresult : (!(decide (name = ofClass) || decide (name = initializer)) ||
        signature.result.isVoid) = true ↔
          (name = initializer ∨ name = ofClass → signature.result.isVoid = true) := by
      simp [imp_iff_not_or, and_comm]
    have hparams : (!decide (name = ofClass) || signature.params.isEmpty) = true ↔
        (name = ofClass → signature.params = []) := by
      simp [imp_iff_not_or]
    rw [Bool.and_eq_true, Bool.and_eq_true, hnew, hresult, hparams]
    simp [Call.member?, Call.tellsCode]
  | value name v =>
    rw [Call.isChecked_value_iff]
    simp only [allows, List.isEmpty_iff, Value.objections_eq_nil_iff, Call.member?, Call.tellsCode]
    simp
  | _ =>
    rw [Call.isChecked_iff_type rfl rfl rfl]
    simp [allows, Call.objectType?, Call.member?, Call.tellsCode, and_comm]

end Site

end Smali
