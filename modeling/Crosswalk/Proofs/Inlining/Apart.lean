import Crosswalk.Proofs.Validation.Same

/-!
# Members that are left to definitions

The schema of an object may refer to the definitions of model groups, and then it leaves to them
what they describe: the schema of such a member is the one that admits anything. But there is only
one slot for a name. If two definitions describe a member, or if something else has its name, the
slot is no longer left to a definition alone. `Apart` says of a schema that this is the case nowhere
in it, nor in the definitions that it refers to.
-/

namespace Crosswalk

open Json

namespace Json

/-! ### Parts of values -/

/-- A value is this one, or inside of it. -/
inductive PartOf (inner : Json) : Json → Prop where
  | whole : PartOf inner inner
  | member {fields : List (String × Json)} {member : String × Json} :
    member ∈ fields → PartOf inner member.2 → PartOf inner (.object fields)
  | item {items : List Json} {item : Json} :
    item ∈ items → PartOf inner item → PartOf inner (.array items)

variable {a b c : Json}

theorem PartOf.trans (h : PartOf a b) (h' : PartOf b c) : PartOf a c := by
  induction h' with
  | whole => exact h
  | member hm _ ih => exact .member hm ih
  | item hi _ ih => exact .item hi ih

/-- What is inside of one of two values that are alike has its counterpart in the other. -/
theorem PartOf.alike {inner : Json} (h : PartOf inner b) : ∀ {a : Json}, a.alike b = true →
    ∃ other, PartOf other a ∧ other.alike inner = true := by
  induction h with
  | whole => exact fun {a} hab => ⟨a, .whole, hab⟩
  | @member fields member hm _ ih =>
      intro a hab
      cases a with
      | object others =>
          obtain ⟨other, ho, halike⟩ := Conversion.exists_entry (forall₂_fields hab).flip hm
          obtain ⟨found, hf, hfound⟩ := ih halike
          exact ⟨found, .member ho hf, hfound⟩
      | _ => exact absurd hab Bool.false_ne_true
  | @item items item hi _ ih =>
      intro a hab
      cases a with
      | array others =>
          obtain ⟨other, ho, halike⟩ := Conversion.exists_entry (forall₂_items hab).flip hi
          obtain ⟨found, hf, hfound⟩ := ih halike
          exact ⟨found, .item ho hf, hfound⟩
      | _ => exact absurd hab Bool.false_ne_true

theorem eq_true_of_alike (h : a.alike b = true) : a = .bool true ↔ b = .bool true := by
  cases a <;> cases b <;> first | exact absurd h Bool.false_ne_true | simp
  next x y => rw [show x = y from eq_of_beq h]

end Json

namespace Check

variable {Home : Type}

/-! ### References to definitions -/

/-- The links among the schemas of a conjunction. -/
def linksOf (schemas : List Json) : List String :=
  schemas.filterMap fun schema => schema.fields?.bind reference?

/-- The links to definitions of model groups: those that are asked for beside the type of an
object. -/
def groupLinks (fields : Table String Json) : List String :=
  if (Table.find? fields "type").bind string? = some "object" then
    linksOf (((Table.find? fields "allOf").bind array?).getD [])
  else []

/-- The schema of a property. -/
def property? (fields : Table String Json) (name : String) : Option Json :=
  (Table.find? fields "properties").bind fun properties => properties.field? name

/-- The members that the definitions describe which the schema of an object refers to. -/
def described (lead : Home → String → Option (Home × Json)) (home : Home)
    (fields : Table String Json) : List String :=
  (groupLinks fields).flatMap fun link =>
    (((lead home link).bind fun target => target.2.fields?).bind declared).getD []

/-- No two definitions describe the same member, and nothing else does. -/
structure DescribesOnce (lead : Home → String → Option (Home × Json)) (home : Home)
    (fields : Table String Json) : Prop where
  nodup : (described lead home fields).Nodup
  left : ∀ name ∈ described lead home fields, property? fields name = some (.bool true)

/-- Nowhere in the schema, nor in the definitions that it refers to, something else describes a
member that a definition does. -/
inductive Apart (lead : Home → String → Option (Home × Json)) : Home → Json → Prop where
  | intro {home : Home} {schema : Json}
    (once : ∀ fields, PartOf (.object fields) schema → DescribesOnce lead home fields)
    (targets : ∀ fields, PartOf (.object fields) schema → ∀ link ∈ groupLinks fields,
      ∀ target, lead home link = some target → Apart lead target.1 target.2) :
    Apart lead home schema

variable {lead : Home → String → Option (Home × Json)} {home : Home}

/-- The links that a list of schemas holds, if it is one. -/
theorem linksOf_alike {schemas others : Json} (h : schemas.alike others = true) :
    schemas.array?.map linksOf = others.array?.map linksOf := by
  have hlink : ∀ {a b : Json}, a.alike b = true →
      a.fields?.bind reference? = b.fields?.bind reference? := by
    intro a b hab
    cases a <;> cases b <;> first | rfl | exact absurd hab Bool.false_ne_true | skip
    next fields others => exact reference?_alike hab
  cases schemas <;> cases others <;> first | rfl | exact absurd h Bool.false_ne_true | skip
  next items items' => exact congrArg some (filterMap_alike hlink (forall₂_items h))

section

variable {fields others : Table String Json}
  (h : agree.agreeFields Number.alike fields others = true)
include h

theorem groupLinks_alike : groupLinks fields = groupLinks others := by
  have htype : (Table.find? fields "type").bind string? =
      (Table.find? others "type").bind string? := find?_bind_alike h "type" string?_alike
  have hall : ((Table.find? fields "allOf").bind array?).map linksOf =
      ((Table.find? others "allOf").bind array?).map linksOf := by
    rw [Option.map_bind, Option.map_bind]
    exact find?_bind_alike h "allOf" linksOf_alike
  rw [groupLinks, groupLinks, htype, ← Option.getD_map linksOf, ← Option.getD_map linksOf, hall]

theorem property?_alike (name : String) :
    property? fields name = some (.bool true) ↔ property? others name = some (.bool true) := by
  unfold property?
  have hrel := find?_alike h "properties"
  generalize Table.find? fields "properties" = x, Table.find? others "properties" = y at hrel ⊢
  cases hrel with
  | none => rfl
  | @some a b hab =>
      cases a <;> cases b <;> first | exact absurd hab Bool.false_ne_true | skip
      case object.object fs gs =>
        have hrel := find?_alike hab name
        change Table.find? fs name = _ ↔ Table.find? gs name = _
        generalize Table.find? fs name = x, Table.find? gs name = y at hrel ⊢
        cases hrel with
        | none => rfl
        | some hab => simpa using eq_true_of_alike hab
      all_goals rfl

theorem DescribesOnce.alike (ho : DescribesOnce lead home fields) :
    DescribesOnce lead home others := by
  have hdescribed : described lead home others = described lead home fields := by
    rw [described, described, groupLinks_alike h]
  refine ⟨hdescribed ▸ ho.nodup, fun name hn => ?_⟩
  rw [← property?_alike h name]
  exact ho.left name (hdescribed ▸ hn)

end

namespace Apart

variable {schema part : Json}

theorem once (h : Apart lead home schema) {fields : Table String Json}
    (hi : PartOf (.object fields) schema) : DescribesOnce lead home fields := by
  cases h with
  | intro once _ => exact once fields hi

theorem target (h : Apart lead home schema) {fields : Table String Json}
    (hi : PartOf (.object fields) schema) {link : String} (hl : link ∈ groupLinks fields)
    {target : Home × Json} (ht : lead home link = some target) : Apart lead target.1 target.2 := by
  cases h with
  | intro _ targets => exact targets fields hi link hl target ht

theorem inside (h : Apart lead home schema) (hi : PartOf part schema) : Apart lead home part :=
  .intro (fun _ hf => h.once (hf.trans hi)) fun _ hf _ hl _ ht => h.target (hf.trans hi) hl ht

theorem alike (h : Apart lead home schema) (halike : schema.alike part = true) :
    Apart lead home part := by
  have counterpart : ∀ {fields : Table String Json}, PartOf (.object fields) part →
      ∃ others : Table String Json, PartOf (.object others) schema ∧
        agree.agreeFields Number.alike others fields = true := by
    intro fields hf
    obtain ⟨other, ho, hof⟩ := hf.alike halike
    cases other with
    | object others => exact ⟨others, ho, hof⟩
    | _ => exact nomatch hof
  refine .intro (fun fields hf => ?_) fun fields hf link hl target ht => ?_
  · obtain ⟨others, ho, hof⟩ := counterpart hf
    exact (h.once ho).alike hof
  · obtain ⟨others, ho, hof⟩ := counterpart hf
    rw [← groupLinks_alike hof] at hl
    exact h.target ho hl ht

/-- The parts of an object that is not apart elsewhere. -/
theorem of_fields {fields others : Table String Json} (h : Apart lead home (.object others))
    (hsub : ∀ member ∈ fields, member ∈ others) (hlinks : groupLinks others = groupLinks fields)
    (hproperty : ∀ name, property? others name = property? fields name) :
    Apart lead home (.object fields) := by
  have hdescribed : described lead home others = described lead home fields := by
    rw [described, described, hlinks]
  refine .intro (fun inner hi => ?_) fun inner hi link hl target ht => ?_
  · cases hi with
    | whole =>
        have own := h.once .whole
        refine ⟨hdescribed ▸ own.nodup, fun name hn => ?_⟩
        rw [← hproperty]
        exact own.left name (hdescribed ▸ hn)
    | member hm hi => exact h.once (.member (hsub _ hm) hi)
  · cases hi with
    | whole => exact h.target .whole (hlinks ▸ hl) ht
    | member hm hi => exact h.target (.member (hsub _ hm) hi) hl ht

theorem of_insert {fields : Table String Json} {name : String} {bound : Json}
    (h : Apart lead home (.object (Table.insert fields name bound)))
    (hn : name ∉ Table.keys fields) (hname : name ∈ besideKeywords) :
    Apart lead home (.object fields) := by
  have hne : "type" ≠ name ∧ "allOf" ≠ name ∧ "properties" ≠ name := by
    refine ⟨?_, ?_, ?_⟩ <;> (rintro rfl; revert hname; decide)
  refine h.of_fields (fun member hm => (Table.mem_insert_iff hn).2 (.inr hm)) ?_ fun other => ?_
  · rw [groupLinks, groupLinks, Table.find?_insert_of_ne _ _ hne.1,
      Table.find?_insert_of_ne _ _ hne.2.1]
  · rw [property?, property?, Table.find?_insert_of_ne _ _ hne.2.2]

theorem of_foldl_insert {extras : List (String × Json)}
    (hextras : ∀ e ∈ extras, e.1 ∈ besideKeywords) (hn : (extras.map (·.1)).Nodup)
    {fields : Table String Json} (hfree : ∀ e ∈ extras, e.1 ∉ Table.keys fields)
    (h : Apart lead home (.object
      (extras.foldl (fun fields (name, value) => Table.insert fields name value) fields))) :
    Apart lead home (.object fields) := by
  induction extras generalizing fields with
  | nil => exact h
  | cons e rest ih =>
      rw [List.forall_mem_cons] at hextras hfree
      rw [List.map_cons, List.nodup_cons] at hn
      refine (ih hextras.2 hn.2 (fun d hd hkey => ?_) h).of_insert hfree.1 hextras.1
      rcases (Table.keys_insert _ _ _ _).1 hkey with heq | hkey
      · exact hn.1 (List.mem_map.2 ⟨d, hd, heq⟩)
      · exact hfree.2 d hd hkey

theorem of_withKeywords {fields : Table String Json} (hlink : "$ref" ∉ Table.keys fields)
    (hfree : ∀ name ∈ besideKeywords, name ∉ Table.keys fields) {extras : List (String × Json)}
    (he : AreBeside extras)
    (h : Apart lead home (Conversion.withKeywords (.object fields) extras)) :
    Apart lead home (.object fields) := by
  unfold Conversion.withKeywords at h
  split at h
  · exact h
  · dsimp only at h
    rw [if_neg fun hc => hlink (Table.contains_iff.1 hc)] at h
    exact of_foldl_insert he.names he.nodup (fun e hm => hfree e.1 (he.names e hm)) h

theorem of_orNull (h : Apart lead home (Conversion.orNull schema)) : Apart lead home schema :=
  h.inside (.member List.mem_cons_self (.item List.mem_cons_self .whole))

theorem of_eitherItem {a b : Slot} (h : Apart lead home (a.eitherItem b)) :
    Apart lead home a.item ∧ Apart lead home b.item := by
  unfold Slot.eitherItem at h
  split at h
  · next halike => exact ⟨h, h.alike halike⟩
  · refine ⟨h.inside (.member List.mem_cons_self (.item List.mem_cons_self .whole)), ?_⟩
    exact h.inside (.member List.mem_cons_self
      (.item (List.mem_cons_of_mem _ List.mem_cons_self) .whole))

theorem of_slot {slot : Slot} (h : Apart lead home slot.schema) : Apart lead home slot.item := by
  have hitems : ∀ {fields : Table String Json}, Table.find? fields "items" = some slot.item →
      PartOf slot.item (.object fields) := fun hf => .member (Table.mem_of_find? hf) .whole
  have harray : Table.find? (Table.ofList [("type", Json.string "array"), ("items", slot.item)])
      "items" = some slot.item := Table.find?_ofList_of_mem (by simp) (by simp)
  have hleast : ∀ bound, Table.find? (if slot.bounds.isRequired then
      Table.insert (Table.ofList [("type", Json.string "array"), ("items", slot.item)]) "minItems"
        bound
      else Table.ofList [("type", Json.string "array"), ("items", slot.item)]) "items" =
        some slot.item := by
    intro bound
    split
    · rw [Table.find?_insert_of_ne _ _ (by simp), harray]
    · exact harray
  unfold Slot.schema at h
  split at h
  · dsimp only at h
    split at h
    · refine h.inside (hitems ?_)
      rw [Table.find?_insert_of_ne _ _ (by simp), hleast]
    · exact h.inside (hitems (hleast _))
  · exact h

end Apart

/-! ### Looking at all objects -/

mutual

/-- The objects in a value. -/
def objectsIn : Json → List (Table String Json)
  | .object fields => fields :: objectsInFields fields
  | .array items => objectsInItems items
  | _ => []

/-- The objects in the members of an object. -/
def objectsInFields : List (String × Json) → List (Table String Json)
  | [] => []
  | (_, value) :: rest => objectsIn value ++ objectsInFields rest

/-- The objects in the items of an array. -/
def objectsInItems : List Json → List (Table String Json)
  | [] => []
  | item :: rest => objectsIn item ++ objectsInItems rest

end

theorem mem_objectsInFields {fields : Table String Json} {member : String × Json}
    {entries : List (String × Json)} (hm : member ∈ entries) (h : fields ∈ objectsIn member.2) :
    fields ∈ objectsInFields entries := by
  induction hm with
  | head => exact List.mem_append_left _ h
  | tail _ _ ih => exact List.mem_append_right _ ih

theorem mem_objectsInItems {fields : Table String Json} {item : Json} {items : List Json}
    (hi : item ∈ items) (h : fields ∈ objectsIn item) : fields ∈ objectsInItems items := by
  induction hi with
  | head => exact List.mem_append_left _ h
  | tail _ _ ih => exact List.mem_append_right _ ih

theorem mem_objectsIn {fields : Table String Json} {schema : Json}
    (h : PartOf (.object fields) schema) : fields ∈ objectsIn schema := by
  induction h with
  | whole => exact List.mem_cons_self
  | member hm _ ih => exact List.mem_cons_of_mem _ (mem_objectsInFields hm ih)
  | item hi _ ih => exact mem_objectsInItems hi ih

/-- Whether the members that definitions describe are left to them. -/
def describesOnce (lead : Home → String → Option (Home × Json)) (home : Home)
    (fields : Table String Json) : Bool :=
  let names := described lead home fields
  decide names.Nodup && names.all fun name =>
    match property? fields name with
    | some (.bool true) => true
    | _ => false

/-- Looks at a schema and at the definitions that it refers to, at most so deep. -/
def apartWithin (lead : Home → String → Option (Home × Json)) : Nat → Home → Json → Bool
  | 0, _, _ => false
  | depth + 1, home, schema => (objectsIn schema).all fun fields =>
    describesOnce lead home fields && (groupLinks fields).all fun link =>
      match lead home link with
      | some (target, definition) => apartWithin lead depth target definition
      | none => true

theorem DescribesOnce.of_describesOnce {fields : Table String Json}
    (h : describesOnce lead home fields = true) : DescribesOnce lead home fields := by
  rw [describesOnce, Bool.and_eq_true, decide_eq_true_eq, List.all_eq_true] at h
  refine ⟨h.1, fun name hn => ?_⟩
  have hname := h.2 name hn
  split at hname
  · assumption
  · exact absurd hname Bool.false_ne_true

theorem Apart.of_apartWithin {depth : Nat} {home : Home} {schema : Json}
    (h : apartWithin lead depth home schema = true) : Apart lead home schema := by
  induction depth generalizing home schema with
  | zero => exact absurd h Bool.false_ne_true
  | succ depth ih =>
      rw [apartWithin, List.all_eq_true] at h
      have look := fun {fields : Table String Json} (hi : PartOf (.object fields) schema) =>
        Bool.and_eq_true_iff.1 (h fields (mem_objectsIn hi))
      refine .intro (fun fields hi => .of_describesOnce (look hi).1)
        fun fields hi link hl target ht => ih ?_
      have hlink := List.all_eq_true.1 (look hi).2 link hl
      rwa [ht] at hlink

/-! ### Schemas that accept the same where they are apart -/

/-- Schemas of what an element or attribute holds, written in two documents: the first one with
references to model groups, the second one without. -/
structure ItemAgrees (lead : Home → String → Option (Home × Json)) (follow : Follow Home)
    (home home' : Home) (a b : Json) : Prop where
  same : Apart lead home a → AcceptsSame follow home home' a b
  described : a ≠ .bool true

/-- Schemas of one type, written in this way. -/
inductive TypeAgrees (lead : Home → String → Option (Home × Json)) (follow : Follow Home)
    (home home' : Home) : Json → Json → Prop where
  | plain {a b : Json} (h : SameType follow home home' a b) : TypeAgrees lead follow home home' a b
  | object {fields fields' : Table String Json} (hlink : "$ref" ∉ Table.keys fields)
    (hfree : ∀ name ∈ besideKeywords, name ∉ Table.keys fields)
    (h : Apart lead home (.object fields) →
      SameFields follow home home' besideKeywords fields fields') :
    TypeAgrees lead follow home home' (.object fields) (.object fields')

variable {follow : Follow Home} {home' : Home} {a b : Json}

theorem ItemAgrees.of_same (h : SameItem follow home home' a b) :
    ItemAgrees lead follow home home' a b := ⟨fun _ => h.same, h.described⟩

section

variable (hb : IsBlind follow)
include hb

theorem TypeAgrees.withKeywords (h : TypeAgrees lead follow home home' a b)
    {extras : List (String × Json)} (he : AreBeside extras) :
    ItemAgrees lead follow home home' (Conversion.withKeywords a extras)
      (Conversion.withKeywords b extras) := by
  cases h with
  | plain h => exact .of_same (h.withKeywords hb he)
  | @object fields fields' hlink hfree h =>
      refine ⟨fun ha => ?_, ?_⟩
      · exact ((SameType.fields (h (ha.of_withKeywords hlink hfree he))).withKeywords hb he).same
      · unfold Conversion.withKeywords
        split <;> exact Json.noConfusion

theorem ItemAgrees.orNull (h : ItemAgrees lead follow home home' a b) :
    ItemAgrees lead follow home home' (Conversion.orNull a) (Conversion.orNull b) :=
  ⟨fun ha => (SameItem.orNull hb ⟨h.same ha.of_orNull, h.described⟩).same, Json.noConfusion⟩

theorem ItemAgrees.eitherItem {a b a' b' : Slot}
    (h : ItemAgrees lead follow home home' a.item a'.item)
    (h' : ItemAgrees lead follow home home' b.item b'.item) :
    ItemAgrees lead follow home home' (a.eitherItem b) (a'.eitherItem b') := by
  refine ⟨fun ha => ?_, ?_⟩
  · obtain ⟨hfirst, hsecond⟩ := ha.of_eitherItem
    exact (SameItem.eitherItem hb ⟨h.same hfirst, h.described⟩ ⟨h'.same hsecond, h'.described⟩).same
  · unfold Slot.eitherItem
    split
    · exact h.described
    · exact Json.noConfusion

end

end Check

end Crosswalk
