import Crosswalk.Proofs.Content.Gathering
import Mathlib.Logic.Function.Basic

/-!
# Attribute uses in order

Attribute uses act on the properties of attributes one by one: a declaration or a reference adds the
property of its name or replaces it, a prohibited one takes it away, and a group stands for the uses
that it holds. What results of some uses is what they make of the properties when they are taken in
order with groups expanded in place. This holds for the names that no element has, for an attribute
with the name of an element is dropped.
-/

namespace Crosswalk

open Conversion

/-! ### Uses with their groups expanded -/

/-- A use of an attribute whose declaration is known, with the file that states it. -/
structure UsedAttribute where
  file : File
  declaration : Attribute
  use : Use
  default : Option String
  fixed : Option String

/-- The properties of attributes by name: the schema, and whether the property is required. -/
abbrev AttributeProperties := String → Option (Json × Bool)

namespace UsedAttribute

variable (context : Context) (simple : List QName)

/-- The name of the property. -/
def key (a : UsedAttribute) : String :=
  propertyName context a.file a.declaration.name a.declaration.qualified

/-- What the attribute is converted to inside of these simple types. -/
def schema (a : UsedAttribute) : Except Problem Json :=
  (run (attributeSchema context a.file a.declaration a.default a.fixed)
    { visited := { simple } }).1

/-- The property of a name is added or replaced, or taken away by a prohibited use. -/
def apply (properties : AttributeProperties) (a : UsedAttribute) : AttributeProperties :=
  Function.update properties (a.key context)
    (if a.use = .prohibited then none
      else (a.schema context simple).toOption.map fun schema => (schema, a.use == .required))

/-- The properties after some uses in order. -/
def applyAll (used : List UsedAttribute) (properties : AttributeProperties) :
    AttributeProperties :=
  used.foldl (apply context simple) properties

variable {context simple}

theorem applyAll_nil (properties : AttributeProperties) :
    applyAll context simple [] properties = properties := rfl

theorem applyAll_singleton (a : UsedAttribute) (properties : AttributeProperties) (name : String) :
    applyAll context simple [a] properties name = if name = a.key context then
      if a.use = .prohibited then none
        else (a.schema context simple).toOption.map fun schema => (schema, a.use == .required)
      else properties name :=
  Function.update_apply _ _ _ _

theorem applyAll_append (used more : List UsedAttribute) (properties : AttributeProperties) :
    applyAll context simple (used ++ more) properties =
      applyAll context simple more (applyAll context simple used properties) :=
  List.foldl_append

/-- What becomes of a name depends on what was there under this name. -/
theorem applyAll_congr (used : List UsedAttribute) {properties other : AttributeProperties}
    {name : String} (h : properties name = other name) :
    applyAll context simple used properties name = applyAll context simple used other name := by
  induction used generalizing properties other with
  | nil => exact h
  | cons a rest ih =>
      refine ih ?_
      rw [apply, apply, Function.update_apply, Function.update_apply, h]

end UsedAttribute

namespace Linkage

/-- Attribute uses of a file come to these ones when groups are expanded in place. -/
inductive Expands (l : Linkage) : File → List AttributeUse → List UsedAttribute → Prop
  | nil {scope : File} : Expands l scope [] []
  | declared {scope : File} {declaration : Attribute} {use : Use} {rest : List AttributeUse}
    {used : List UsedAttribute} (h : Expands l scope rest used) :
    Expands l scope (.declared declaration use :: rest)
      (⟨scope, declaration, use, none, none⟩ :: used)
  | reference {scope : File} {name : QName} {use : Use} {default fixed : Option String}
    {located : Located Attribute} {rest : List AttributeUse} {used : List UsedAttribute}
    (hl : l.attribute? scope name = some located) (h : Expands l scope rest used) :
    Expands l scope (.reference name use default fixed :: rest)
      (⟨located.file, located.declaration, use, default, fixed⟩ :: used)
  | group {scope : File} {name : QName} {located : Located AttributeGroup}
    {rest : List AttributeUse} {inner used : List UsedAttribute}
    (hl : l.attributeGroup? scope name = some located)
    (hinner : Expands l located.file located.declaration.attributes inner)
    (h : Expands l scope rest used) : Expands l scope (.group name :: rest) (inner ++ used)

/-- One of the attribute groups that uses stand for, or that are inside of these, admits attributes
that it does not list. -/
inductive HoldsWildcard (l : Linkage) : File → List AttributeUse → Prop
  | here {scope : File} {uses : List AttributeUse} {name : QName} {located : Located AttributeGroup}
    (hu : .group name ∈ uses) (hl : l.attributeGroup? scope name = some located)
    (ha : located.declaration.anyAttribute = true) : HoldsWildcard l scope uses
  | inside {scope : File} {uses : List AttributeUse} {name : QName}
    {located : Located AttributeGroup} (hu : .group name ∈ uses)
    (hl : l.attributeGroup? scope name = some located)
    (h : HoldsWildcard l located.file located.declaration.attributes) : HoldsWildcard l scope uses

variable {l : Linkage} {scope : File} {uses rest : List AttributeUse}

theorem Expands.unique {used others : List UsedAttribute} (h : l.Expands scope uses used)
    (h' : l.Expands scope uses others) : used = others := by
  induction h generalizing others with
  | nil =>
      cases h'
      rfl
  | declared _ ih =>
      cases h' with
      | declared h' => rw [ih h']
  | reference hl _ ih =>
      cases h' with
      | reference hl' h' =>
          obtain rfl := Option.some.inj (hl.symm.trans hl')
          rw [ih h']
  | group hl _ _ ihinner ih =>
      cases h' with
      | group hl' hinner' h' =>
          obtain rfl := Option.some.inj (hl.symm.trans hl')
          rw [ihinner hinner', ih h']

theorem Expands.cons {use : AttributeUse} {first used : List UsedAttribute}
    (hfirst : l.Expands scope [use] first) (h : l.Expands scope rest used) :
    l.Expands scope (use :: rest) (first ++ used) := by
  cases hfirst with
  | declared hnil =>
      cases hnil
      exact .declared h
  | reference hl hnil =>
      cases hnil
      exact .reference hl h
  | group hl hinner hnil =>
      cases hnil
      rw [List.append_nil]
      exact .group hl hinner h

theorem not_holdsWildcard (h : ∀ name, .group name ∉ uses) : ¬ l.HoldsWildcard scope uses := by
  intro hw
  cases hw with
  | here hu _ _ => exact h _ hu
  | inside hu _ _ => exact h _ hu

theorem holdsWildcard_cons {use : AttributeUse} : l.HoldsWildcard scope (use :: rest) ↔
    l.HoldsWildcard scope [use] ∨ l.HoldsWildcard scope rest := by
  constructor
  · intro h
    cases h with
    | here hu hl ha =>
        exact (List.mem_cons.1 hu).imp (fun he => .here (he ▸ List.mem_singleton_self _) hl ha)
          fun hu => .here hu hl ha
    | inside hu hl h =>
        exact (List.mem_cons.1 hu).imp (fun he => .inside (he ▸ List.mem_singleton_self _) hl h)
          fun hu => .inside hu hl h
  · have bigger : ∀ {some : List AttributeUse}, some ⊆ use :: rest → l.HoldsWildcard scope some →
        l.HoldsWildcard scope (use :: rest) := fun hsub h => by
      cases h with
      | here hu hl ha => exact .here (hsub hu) hl ha
      | inside hu hl h => exact .inside (hsub hu) hl h
    exact fun h => h.elim (bigger (by simp)) (bigger (by simp))

theorem holdsWildcard_group {name : QName} {located : Located AttributeGroup}
    (hl : l.attributeGroup? scope name = some located) : l.HoldsWildcard scope [.group name] ↔
      l.HoldsWildcard located.file located.declaration.attributes ∨
        located.declaration.anyAttribute = true := by
  constructor
  · intro h
    cases h with
    | here hu hl' ha =>
        cases List.mem_singleton.1 hu
        obtain rfl := Option.some.inj (hl.symm.trans hl')
        exact .inr ha
    | inside hu hl' h =>
        cases List.mem_singleton.1 hu
        obtain rfl := Option.some.inj (hl.symm.trans hl')
        exact .inl h
  · exact fun h => h.elim (.inside (List.mem_singleton_self _) hl)
      (.here (List.mem_singleton_self _) hl)

end Linkage

namespace Shape

/-! ### The properties of attributes in a shape -/

/-- The properties of the attributes of a shape. -/
def attributeProperties (s : Shape) : AttributeProperties :=
  fun name => (Table.find? s.attributes name).map fun slot => (slot.schema, slot.required)

/-- A name without an element has the slot of an attribute, if it has one. -/
theorem find?_attributes {s : Shape} {name : String} (h : ¬ s.HasElement name) :
    Table.find? s.attributes name = s.slot? name := by
  unfold HasElement roster at h
  unfold attributes slot?
  generalize s.slots = slots at h ⊢
  induction slots with
  | nil => rfl
  | cons e rest ih =>
      obtain ⟨n, slot⟩ := e
      rw [List.map_cons, List.mem_cons, not_or] at h
      rw [List.filter_cons, Table.find?_cons]
      cases ha : slot.isAttribute with
      | true =>
          rw [if_pos rfl, Table.find?_cons, ih h.2]
      | false =>
          have hne : name ≠ n := fun hn => h.1 (by rw [hn, ha])
          rw [if_neg hne, if_neg Bool.false_ne_true, ih h.2]

/-- The slots of attributes when one of them is placed. -/
theorem filter_place_attribute {name : String} {slot : Slot} (hs : slot.isAttribute = true)
    {slots : List (String × Slot)}
    (h : ∀ old, Table.find? slots name = some old → old.isAttribute = true) :
    (place (fun _ => slot) name slot slots).filter (fun e => e.2.isAttribute) =
      place (fun _ => slot) name slot (slots.filter fun e => e.2.isAttribute) := by
  induction slots with
  | nil => simp [place, hs]
  | cons e rest ih =>
      obtain ⟨n, old⟩ := e
      by_cases hn : n = name
      · have hold := h old (by rw [Table.find?_cons, if_pos hn.symm])
        simp [place, hn, hs, hold]
      · have hrest := ih fun old ho => h old (by rwa [Table.find?_cons, if_neg (Ne.symm hn)])
        cases ha : old.isAttribute <;> simp [place, hn, ha, hrest]

theorem hasElement_of_slot? {s : Shape} {name : String} {slot : Slot} (h : s.slot? name = some slot)
    (he : slot.isAttribute = false) : s.HasElement name :=
  List.mem_map.2 ⟨(name, slot), Table.mem_of_find? h, by rw [he]⟩

/-- The property of an attribute is there once it has been added, unless an element has the name. -/
theorem attributeProperties_addAttribute? (s : Shape) {name : String} {slot : Slot}
    (ha : slot.isAttribute = true) {other : String}
    (hn : ¬ ((s.addAttribute? name slot).getD s).HasElement other) :
    ((s.addAttribute? name slot).getD s).attributeProperties other =
      if other = name then some (slot.schema, slot.required) else s.attributeProperties other := by
  unfold addAttribute? at hn ⊢
  split
  · next hany =>
      rw [if_pos hany] at hn
      obtain ⟨found, hfound, he⟩ := (Option.any_eq_true _ _).1 hany
      have hne : other ≠ name := fun heq =>
        hn (heq ▸ hasElement_of_slot? hfound (by simpa using he))
      rw [if_neg hne]
      rfl
  · next hfree =>
      have hattribute : ∀ old, Table.find? s.slots name = some old → old.isAttribute = true := by
        intro old ho
        rw [slot?, ho, Option.any_some, Bool.not_eq_true', Bool.not_eq_false] at hfree
        exact hfree
      have hplace : attributes { s with slots := place (fun _ => slot) name slot s.slots } =
          place (fun _ => slot) name slot s.attributes := filter_place_attribute ha hattribute
      rw [Option.getD_some, attributeProperties, hplace, find?_place]
      split
      · cases Table.find? s.attributes name <;> rfl
      · rfl

theorem attributes_removeAttribute (s : Shape) (name : String) :
    (s.removeAttribute name).attributes = s.attributes.filter fun e => e.1 != name := by
  rw [attributes, removeAttribute, attributes, List.filter_filter, List.filter_filter]
  refine List.filter_congr fun e _ => ?_
  cases e.2.isAttribute <;> simp [bne]

theorem find?_filter_ne {α : Type} (entries : Table String α) (name other : String) :
    Table.find? (entries.filter fun e => e.1 != name) other =
      if other = name then none else Table.find? entries other := by
  induction entries with
  | nil => simp
  | cons e rest ih =>
      obtain ⟨n, value⟩ := e
      by_cases hn : n = name
      · subst hn
        by_cases ho : other = n
        · subst ho
          simpa using ih
        · simp [ho, ih, Table.find?_cons]
      · by_cases ho : other = name
        · subst ho
          simp [hn, ih, Table.find?_cons, Ne.symm hn]
        · simp [hn, ih, Table.find?_cons, ho]

/-- The second shape has come of the first by elements that have such names, by wildcards if it
`opens` the shape, and by attribute uses. These convert, and act on the properties of all names that
no element has. -/
structure Acquires (context : Context) (simple : List QName) (named : String → Prop) (opens : Prop)
    (used : List UsedAttribute) (s r : Shape) : Prop where
  kept : ∀ name, s.HasElement name → r.HasElement name
  elements : ∀ name, r.HasElement name → s.HasElement name ∨ named name
  isOpen : r.isOpen = true ↔ s.isOpen = true ∨ opens
  converted : ∀ a ∈ used, a.use ≠ .prohibited → ∃ schema, a.schema context simple = .ok schema
  properties : ∀ name, ¬ r.HasElement name → r.attributeProperties name =
    UsedAttribute.applyAll context simple used s.attributeProperties name

section

variable {context : Context} {simple : List QName} {named named' : String → Prop}
  {opens opens' : Prop} {used used' : List UsedAttribute} {s t r : Shape}

theorem Gathers.acquires (h : Gathers named opens s r) :
    Acquires context simple named opens [] s r :=
  ⟨h.kept, h.elements, h.isOpen, List.forall_mem_nil _, fun name _ => by
    rw [UsedAttribute.applyAll_nil, attributeProperties, attributeProperties, h.attributes]⟩

namespace Acquires

theorem refl (s : Shape) : Acquires context simple (fun _ => False) False [] s s :=
  (Gathers.refl _ id s).acquires

theorem mono (h : Acquires context simple named opens used s r)
    (hn : ∀ name, named name → named' name) (ho : opens' ↔ opens) :
    Acquires context simple named' opens' used s r :=
  ⟨h.kept, fun name hname => (h.elements name hname).imp_right (hn name), by rw [h.isOpen, ho],
    h.converted, h.properties⟩

theorem trans (h : Acquires context simple named opens used s t)
    (h' : Acquires context simple named' opens' used' t r) :
    Acquires context simple (fun name => named name ∨ named' name) (opens ∨ opens') (used ++ used')
      s r where
  kept name hn := h'.kept name (h.kept name hn)
  elements name hn := by
    rcases h'.elements name hn with hn | hn
    · exact (h.elements name hn).imp_right .inl
    · exact .inr (.inr hn)
  isOpen := by rw [h'.isOpen, h.isOpen, or_assoc]
  converted := List.forall_mem_append.2 ⟨h.converted, h'.converted⟩
  properties name hn := by
    have hfirst := h.properties name fun ht => hn (h'.kept name ht)
    rw [h'.properties name hn, UsedAttribute.applyAll_append]
    exact UsedAttribute.applyAll_congr used' hfirst

/-- Elements and wildcards come behind. -/
theorem gathers (h : Acquires context simple named opens used s t)
    (h' : Gathers named' opens' t r) :
    Acquires context simple (fun name => named name ∨ named' name) (opens ∨ opens') used s r := by
  have hall := h.trans h'.acquires
  rwa [List.append_nil] at hall

/-- A wildcard may open the shape. -/
theorem opened (h : Acquires context simple named opens used s r) (isOpen : Bool) :
    Acquires context simple named (opens ∨ isOpen = true) used s
      (if isOpen then { r with isOpen := true } else r) := by
  cases isOpen with
  | true => exact ⟨h.kept, h.elements, by simp, h.converted, h.properties⟩
  | false => exact h.mono (fun _ => id) (or_iff_left Bool.false_ne_true)

theorem schema_ofAttribute (item : Json) (required : Bool) :
    (Slot.ofAttribute item required).schema = item := by
  cases required <;> rfl

/-- A prohibited use. -/
theorem removeAttribute {a : UsedAttribute} (ha : a.use = .prohibited) (s : Shape) :
    Acquires context simple (fun _ => False) False [a] s (s.removeAttribute (a.key context)) where
  kept name hn := by
    rw [HasElement, roster_removeAttribute]
    exact List.mem_filter.2 ⟨hn, rfl⟩
  elements name hn := by
    rw [HasElement, roster_removeAttribute] at hn
    exact .inl (List.mem_filter.1 hn).1
  isOpen := (or_false _).symm.to_iff
  converted := List.forall_mem_singleton.2 fun hne => absurd ha hne
  properties name _ := by
    rw [UsedAttribute.applyAll_singleton, if_pos ha, attributeProperties,
      attributes_removeAttribute, find?_filter_ne]
    split
    · rfl
    · rfl

/-- A declaration or reference. The property is not added if an element has its name. -/
theorem addAttribute {a : UsedAttribute} (ha : a.use ≠ .prohibited) {schema : Json}
    (hschema : a.schema context simple = .ok schema) (s : Shape) :
    Acquires context simple (fun _ => False) False [a] s
      ((s.addAttribute? (a.key context) (.ofAttribute schema (a.use == .required))).getD s) := by
  have hroster : ((s.addAttribute? (a.key context)
      (.ofAttribute schema (a.use == .required))).getD s).roster =
        enlist s.roster (a.key context) true := roster_addAttribute? s (a.key context) rfl
  refine ⟨fun name hn => ?_, fun name hn => .inl ?_, ?_,
    List.forall_mem_singleton.2 fun _ => ⟨schema, hschema⟩, fun name hn => ?_⟩
  · rw [HasElement, hroster]
    exact mem_enlist_of_mem hn _ _
  · rw [HasElement, hroster] at hn
    exact (mem_enlist hn).resolve_right fun he => Bool.false_ne_true (Prod.mk.inj he).2
  · rw [or_false]
    unfold addAttribute?
    split <;> rfl
  · rw [UsedAttribute.applyAll_singleton, if_neg ha, hschema,
      attributeProperties_addAttribute? s rfl hn, schema_ofAttribute]
    rfl

end Acquires

end

end Shape

namespace Conversion

open Shape

/-! ### Results inside of simple types -/

/-- Whatever the conversion results in inside of these simple types satisfies a property, and is
inside of the same ones. -/
def YieldsInside {α : Type} (simple : List QName) (c : Conversion α) (P : α → Prop) : Prop :=
  ∀ s t a, s.visited.simple = simple → run c s = (.ok a, t) → P a ∧ t.visited.simple = simple

/-- A declaration of another kind is entered and left. -/
theorem simple_entering {kind : Expandable} (hk : kind ≠ .simple) (name : QName)
    (s : ConversionState) : (entering kind name s).visited.simple = s.visited.simple := by
  cases kind with
  | simple => exact absurd rfl hk
  | _ => rfl

theorem simple_leaving {kind : Expandable} (hk : kind ≠ .simple) (name : QName)
    (s : ConversionState) : (leaving kind name s).visited.simple = s.visited.simple := by
  cases kind with
  | simple => exact absurd rfl hk
  | _ => rfl

section

variable {α β : Type} {simple : List QName} {c : Conversion α} {P : α → Prop} {Q : β → Prop}

theorem Yields.inside (h : Yields c P) (hc : Steady c) : YieldsInside simple c P := by
  intro s t a hs hrun
  have hv := (hc s s rfl).2
  rw [hrun] at hv
  exact ⟨h s t a hrun, (congrArg Visited.simple hv).trans hs⟩

namespace YieldsInside

theorem pure {a : α} (h : P a) : YieldsInside simple (Pure.pure a) P :=
  (Yields.pure h).inside (steady_pure a)

theorem mono {P' : α → Prop} (h : YieldsInside simple c P) (hp : ∀ a, P a → P' a) :
    YieldsInside simple c P' :=
  fun s t a hs hrun => (h s t a hs hrun).imp_left (hp a)

theorem bind {f : α → Conversion β} (h : YieldsInside simple c P)
    (hf : ∀ a, P a → YieldsInside simple (f a) Q) : YieldsInside simple (c >>= f) Q := by
  intro s t b hs hrun
  obtain ⟨a, u, ha, hb⟩ := run_bind_ok hrun
  obtain ⟨hp, hu⟩ := h s u a hs ha
  exact hf a hp u t b hu hb

theorem ite {d : Conversion α} {p : Prop} [Decidable p] (hc : YieldsInside simple c P)
    (hd : YieldsInside simple d P) : YieldsInside simple (if p then c else d) P := by
  split
  · exact hc
  · exact hd

theorem found (scope : File) (referencing : String) (name : QName) {result : Option α} :
    YieldsInside simple (Conversion.found scope referencing name result) (result = some ·) :=
  (Yields.found fun _ => id).inside (steady_found scope referencing name result)

/-- Inside of a declaration of another kind, a conversion is inside of the same simple types. -/
theorem visiting {kind : Expandable} (hk : kind ≠ .simple) {scope : File} {name : QName}
    (h : YieldsInside simple c P) :
    YieldsInside simple (Conversion.visiting kind scope name c) P := by
  intro s t a hs hrun
  rw [run_visiting] at hrun
  split at hrun
  · exact nomatch hrun
  · obtain ⟨hok, hleft⟩ := Prod.mk.inj hrun
    have hinside := h (entering kind name s) _ a ((simple_entering hk name s).trans hs)
      (Prod.ext hok rfl)
    exact ⟨hinside.1, hleft ▸ (simple_leaving hk name _).trans hinside.2⟩

end YieldsInside

end

/-! ### Attribute uses -/

variable {context : Context} {simple : List QName}

theorem yieldsInside_schema (a : UsedAttribute) :
    YieldsInside simple (attributeSchema context a.file a.declaration a.default a.fixed)
      (a.schema context simple = .ok ·) := by
  intro s t schema hs hrun
  obtain ⟨hsame, hvisited⟩ := isBasic_heeds.attributeSchema context a.file a.declaration a.default
    a.fixed s { visited := { simple } } hs
  rw [hrun] at hsame hvisited
  exact ⟨hsame.symm, (congrArg Visited.simple hvisited).trans hs⟩

/-- What some uses of a file make of a shape. -/
def TakesUses (context : Context) (simple : List QName) (scope : File) (uses : List AttributeUse)
    (s r : Shape) : Prop :=
  ∃ used, context.linkage.Expands scope uses used ∧
    Acquires context simple (fun _ => False) (context.linkage.HoldsWildcard scope uses) used s r

theorem takesUses_used (a : UsedAttribute) {site : Site} {use : AttributeUse} {s : Shape}
    (hu : context.linkage.Expands site.scope [use] [a]) (hw : ∀ name, use ≠ .group name) :
    YieldsInside simple
      (if a.use = .prohibited then pure (s.removeAttribute (a.key context))
        else do
          let item ← attributeSchema context a.file a.declaration a.default a.fixed
          addAttribute context site (a.key context) (.ofAttribute item (a.use == .required)) s)
      (TakesUses context simple site.scope [use] s) := by
  have hnone : ¬ context.linkage.HoldsWildcard site.scope [use] :=
    Linkage.not_holdsWildcard fun name hn => hw name (List.mem_singleton.1 hn).symm
  have taken : ∀ r, Acquires context simple (fun _ => False) False [a] s r →
      TakesUses context simple site.scope [use] s r :=
    fun r hr => ⟨[a], hu, hr.mono (fun _ => id) (iff_false_intro hnone)⟩
  split
  · next ha => exact YieldsInside.pure (taken _ (.removeAttribute ha s))
  · next ha =>
      refine (yieldsInside_schema a).bind fun item hitem => ?_
      refine ((does_addAttribute context site _ _ s).yields.inside
        (isClosed_steady.addAttribute context site _ _ s)).mono fun r hr => ?_
      exact taken r (hr ▸ .addAttribute ha hitem s)

theorem attributeGroup_ne : Expandable.attributeGroup ≠ .simple := Expandable.noConfusion

section

variable {expand : AttributeExpansion}
  (he : ∀ site located s, YieldsInside simple (expand site located s)
    (TakesUses context simple site.scope located.declaration.attributes s))
include he

theorem takesUses_collectUse (site : Site) (s : Shape) (use : AttributeUse) :
    YieldsInside simple (collectUse context expand site s use)
      (TakesUses context simple site.scope [use] s) := by
  cases use with
  | declared declaration use =>
      exact takesUses_used ⟨site.scope, declaration, use, none, none⟩ (.declared .nil) nofun
  | reference reference use default fixed =>
      exact (YieldsInside.found _ _ _).bind fun located hl =>
        takesUses_used ⟨located.file, located.declaration, use, default, fixed⟩
          (.reference hl .nil) nofun
  | group reference =>
      refine (YieldsInside.found _ _ _).bind fun located hl =>
        ((he { site with scope := located.file } located s).visiting attributeGroup_ne).bind
          fun r hr => YieldsInside.pure ?_
      obtain ⟨used, hused, hr⟩ := hr
      refine ⟨used, by simpa using Linkage.Expands.group hl hused .nil, ?_⟩
      exact (hr.opened located.declaration.anyAttribute).mono (fun _ => id)
        (Linkage.holdsWildcard_group hl)

theorem takesUses_collectUses (site : Site) (s : Shape) (uses : List AttributeUse) :
    YieldsInside simple (collectUses context expand site s uses)
      (TakesUses context simple site.scope uses s) := by
  induction uses generalizing s with
  | nil =>
      have hnone : ¬ context.linkage.HoldsWildcard site.scope [] :=
        Linkage.not_holdsWildcard fun _ => List.not_mem_nil
      exact YieldsInside.pure ⟨[], .nil, (Acquires.refl s).mono (fun _ => id)
        (iff_false_intro hnone)⟩
  | cons use rest ih =>
      refine (takesUses_collectUse he site s use).bind fun t ht => (ih t).mono fun r hr => ?_
      obtain ⟨first, hfirst, ht⟩ := ht
      obtain ⟨used, hused, hr⟩ := hr
      exact ⟨first ++ used, hfirst.cons hused, (ht.trans hr).mono (fun _ => or_self_iff.1)
        Linkage.holdsWildcard_cons⟩

end

theorem takesUses_expandAttributes (depth : Nat) : ∀ site located s,
    YieldsInside simple (expandAttributes context depth site located s)
      (TakesUses context simple site.scope located.declaration.attributes s) := by
  induction depth with
  | zero => exact fun _ _ _ => Yields.throw.inside (steady_throw _)
  | succ depth ih => exact fun site located s => takesUses_collectUses ih site s _

/-- Attribute uses are taken in order, with groups expanded in place. -/
theorem takesUses_collectAttributes (site : Site) (uses : List AttributeUse) (s : Shape) :
    YieldsInside simple (collectAttributes context site uses s)
      (TakesUses context simple site.scope uses s) :=
  takesUses_collectUses (takesUses_expandAttributes _) site s uses

end Conversion

end Crosswalk
