import Crosswalk.Schema.Reader

/-!
# Classes of readings

A class of readings is closed if it contains the elementary ones — a result, a document that is
malformed, the noting of what is passed over — and whatever is put together from its members. Every
reading of a construct belongs to every closed class. One such class is that of plain readings: what
is noted before neither changes their result nor what they note themselves, and that is about the
file that is read.
-/

namespace Crosswalk

namespace Schema

/-- A class of readings that contains the elementary ones and what is put together from its
members. -/
structure Reading.IsClosed (setting : Setting) (P : {α : Type} → Reading α → Prop) : Prop where
  pure : ∀ {α : Type} (a : α), P (Pure.pure a : Reading α)
  malformed : ∀ {α : Type} (reason : String), P (Reading.malformed reason : Reading α)
  note : ∀ location construct, P (Reading.note setting location construct)
  bind : ∀ {α β : Type} {c : Reading α} {f : α → Reading β},
    P c → (∀ a, P (f a)) → P (c >>= f)

theorem Reading.of_ite {P : {α : Type} → Reading α → Prop} {α : Type} {c d : Reading α} {p : Prop}
    [Decidable p] (hc : P c) (hd : P d) : P (if p then c else d) := by
  split
  · exact hc
  · exact hd

namespace Reading.IsClosed

variable {setting : Setting} {P : {α : Type} → Reading α → Prop} (h : IsClosed setting P)
include h

theorem map {α β : Type} {c : Reading α} (f : α → β) (hc : P c) :
    P (c >>= fun a => Pure.pure (f a)) :=
  h.bind hc fun a => h.pure (f a)

theorem lift {α : Type} (result : Except String α) : P (Reading.lift result) := by
  cases result with
  | ok a => exact h.pure a
  | error reason => exact h.malformed reason

theorem required (location : String) (c : Construct) (name : String) :
    P (Schema.required location c name) := by
  unfold Schema.required
  split
  · exact h.pure _
  · exact h.malformed _

theorem nameOf (c : Construct) (text : String) : P (Schema.nameOf c text) := h.lift _

theorem namesOf (c : Construct) : ∀ words : List String, P (Schema.namesOf c words)
  | [] => h.pure _
  | word :: rest => h.bind (h.nameOf c word) fun _ => h.map _ (namesOf c rest)

theorem name? (c : Construct) (name : String) : P (Schema.name? c name) := by
  unfold Schema.name?
  split
  · exact h.map _ (h.nameOf c _)
  · exact h.pure _

/-! ### Simple types -/

theorem facets (location : String) : ∀ constructs : List Construct,
    P (Schema.facets setting location constructs)
  | [] => h.pure _
  | c :: rest => by
      unfold Schema.facets
      split
      · exact h.bind (h.required location c _) fun _ => h.map _ (facets location rest)
      · split
        · exact h.bind (h.note _ _) fun _ => facets location rest
        · exact facets location rest

set_option linter.unusedSectionVars false in
mutual

theorem simpleType (location : String) : ∀ constructs : List Construct,
    P (Schema.simpleType setting location constructs)
  | [] => by
      unfold Schema.simpleType
      exact h.malformed _
  | c :: rest => by
      unfold Schema.simpleType
      refine of_ite ?_ (of_ite ?_ (of_ite ?_ ?_))
      · exact h.bind (simpleBase location _ c) fun _ => h.map _ (h.facets location _)
      · exact h.map _ (simpleBase location _ c)
      · refine h.bind (h.namesOf c _) fun names =>
          h.bind (inlineMembers location c) fun inline => ?_
        exact of_ite (h.malformed _) (h.pure _)
      · exact h.bind (h.note _ _) fun _ => simpleType location rest

theorem simpleBase (location naming : String) : ∀ c : Construct,
    P (Schema.simpleBase setting location naming c)
  | .mk name attributes bindings documentation children => by
      unfold Schema.simpleBase
      refine h.bind (h.name? _ naming) fun named => ?_
      cases named with
      | some name => exact h.pure _
      | none =>
          refine h.bind (nestedSimple location children) fun nested => ?_
          cases nested with
          | some type => exact h.pure _
          | none => exact h.malformed _

theorem nestedSimple (location : String) : ∀ constructs : List Construct,
    P (Schema.nestedSimple setting location constructs)
  | [] => by
      unfold Schema.nestedSimple
      exact h.pure _
  | .mk name attributes bindings documentation children :: rest => by
      unfold Schema.nestedSimple
      exact of_ite (h.map _ (simpleType location children)) (nestedSimple location rest)

theorem inlineMembers (location : String) : ∀ c : Construct,
    P (Schema.inlineMembers setting location c)
  | .mk name attributes bindings documentation children => by
      unfold Schema.inlineMembers
      exact inlineTypes location children

theorem inlineTypes (location : String) : ∀ constructs : List Construct,
    P (Schema.inlineTypes setting location constructs)
  | [] => by
      unfold Schema.inlineTypes
      exact h.pure _
  | .mk name attributes bindings documentation children :: rest => by
      unfold Schema.inlineTypes
      refine of_ite (h.bind (simpleType location children) fun _ => ?_) (inlineTypes location rest)
      exact h.map _ (inlineTypes location rest)

end

/-! ### Attributes -/

theorem attributeOf (name : QName) (qualified : Bool) (location : String) (c : Construct) :
    P (Schema.attributeOf setting name qualified location c) := by
  unfold Schema.attributeOf
  refine h.bind (h.name? c _) fun named => ?_
  cases named with
  | some q => exact h.pure _
  | none => exact h.map _ (h.nestedSimple location _)

theorem use (location : String) (c : Construct) : P (Schema.use location c) := by
  unfold Schema.use
  split
  · exact h.pure _
  · exact of_ite (h.pure _) (of_ite (h.pure _) (of_ite (h.pure _) (h.malformed _)))

theorem attributeUse (location : String) (c : Construct) :
    P (Schema.attributeUse setting location c) := by
  unfold Schema.attributeUse
  refine h.bind (h.use location c) fun kind => h.bind (h.name? c _) fun reference => ?_
  cases reference with
  | some name => exact h.pure _
  | none =>
      exact h.bind (h.required location c _) fun name => h.map _ (h.attributeOf _ _ _ c)

theorem attributeUses (location : String) : ∀ constructs : List Construct,
    P (Schema.attributeUses setting location constructs)
  | [] => h.pure _
  | c :: rest => by
      unfold Schema.attributeUses
      refine of_ite ?_ (of_ite ?_ ?_)
      · exact h.bind (h.attributeUse location c) fun _ => h.map _ (attributeUses location rest)
      · exact h.bind (h.required location c _) fun _ => h.bind (h.nameOf c _) fun _ =>
          h.map _ (attributeUses location rest)
      · exact h.map _ (attributeUses location rest)

/-! ### Particles and complex types -/

theorem occurs (location : String) (c : Construct) : P (Schema.occurs location c) := by
  unfold Schema.occurs
  extract_lets upper
  have hupper : ∀ least, P (upper least) := fun least => by
    unfold upper
    extract_lets ordered
    have hordered : ∀ most, P (ordered most) := fun most => by
      unfold ordered
      split
      · exact of_ite (h.malformed _) (h.pure _)
      · exact h.pure _
    split
    · exact h.bind (h.pure _) hordered
    · refine of_ite (h.bind (h.pure _) hordered) ?_
      split
      · exact h.bind (h.pure _) hordered
      · exact h.bind (h.malformed _) hordered
  split
  · exact h.bind (h.pure _) hupper
  · split
    · exact h.bind (h.pure _) hupper
    · exact h.bind (h.malformed _) hupper

theorem groupRef (location : String) (c : Construct) : P (Schema.groupRef location c) :=
  h.bind (h.occurs location c) fun _ => h.bind (h.required location c _) fun _ =>
    h.map _ (h.nameOf c _)

theorem elementOf (name : QName) (qualified : Bool) (location : String) (c : Construct)
    (type : ElementType) : P (Schema.elementOf setting name qualified location c type) := by
  unfold Schema.elementOf
  exact of_ite (h.bind (h.note _ _) fun _ => h.pure _) (h.pure _)

theorem namedType (c : Construct) : P (Schema.namedType c) := by
  unfold Schema.namedType
  refine h.bind (h.name? c _) fun named => ?_
  cases named with
  | some q => exact h.pure _
  | none => exact h.pure _

theorem derivationBase (location : String) (c : Construct) :
    P (Schema.derivationBase location c) :=
  h.bind (h.required location c _) fun _ => h.nameOf c _

theorem simpleContent (location : String) (type : ComplexType) (outer : String) :
    ∀ constructs : List Construct, P (Schema.simpleContent setting location type outer constructs)
  | [] => h.malformed _
  | c :: rest => by
      unfold Schema.simpleContent
      split
      · exact simpleContent location type outer rest
      · next derivation _ =>
          refine h.bind (h.derivationBase location c) fun base => ?_
          rcases derivation with _ | _
          · exact h.bind (h.pure []) fun facets => h.map _ (h.attributeUses location c.children)
          · exact h.bind (h.facets location c.children) fun facets =>
              h.map _ (h.attributeUses location c.children)

set_option linter.unusedSectionVars false in
mutual

theorem complexParts (location : String) (type : ComplexType) : ∀ constructs : List Construct,
    P (Schema.complexParts setting location type constructs)
  | [] => by
      unfold Schema.complexParts
      exact h.pure _
  | c :: rest => by
      unfold Schema.complexParts
      refine of_ite ?_ (of_ite ?_ (of_ite ?_ (of_ite ?_ ?_)))
      · exact h.bind (groupParticle location c) fun _ => complexParts location _ rest
      · exact h.bind (h.groupRef location c) fun _ => complexParts location _ rest
      · exact h.bind (h.simpleContent location type _ _) fun _ => complexParts location _ rest
      · exact h.bind (complexContent location _ c) fun _ => complexParts location _ rest
      · exact of_ite (h.bind (h.note _ _) fun _ => complexParts location type rest)
          (complexParts location type rest)

theorem complexContent (location : String) (type : ComplexType) : ∀ c : Construct,
    P (Schema.complexContent setting location type c)
  | .mk name attributes bindings documentation children => by
      unfold Schema.complexContent
      exact derivedContent location type name children

theorem derivedContent (location : String) (type : ComplexType) (outer : String) :
    ∀ constructs : List Construct, P (Schema.derivedContent setting location type outer constructs)
  | [] => by
      unfold Schema.derivedContent
      exact h.malformed _
  | .mk name attributes bindings documentation inner :: rest => by
      unfold Schema.derivedContent
      split
      · exact derivedContent location type outer rest
      · exact h.bind (h.derivationBase location _) fun _ =>
          h.bind (derivedParticle location none inner) fun _ =>
            h.map _ (h.attributeUses location inner)

theorem derivedParticle (location : String) (particle : Option Particle) :
    ∀ constructs : List Construct, P (Schema.derivedParticle setting location particle constructs)
  | [] => by
      unfold Schema.derivedParticle
      exact h.pure _
  | c :: rest => by
      unfold Schema.derivedParticle
      refine of_ite ?_ (of_ite ?_ ?_)
      · exact h.bind (groupParticle location c) fun _ => derivedParticle location _ rest
      · exact h.bind (h.groupRef location c) fun _ => derivedParticle location _ rest
      · exact of_ite (h.bind (h.note _ _) fun _ => derivedParticle location particle rest)
          (derivedParticle location particle rest)

theorem groupParticle (location : String) : ∀ c : Construct,
    P (Schema.groupParticle setting location c)
  | .mk name attributes bindings documentation children => by
      unfold Schema.groupParticle
      exact h.bind (h.occurs location _) fun _ => h.map _ (particles _ children)

theorem particles (location : String) : ∀ constructs : List Construct,
    P (Schema.particles setting location constructs)
  | [] => by
      unfold Schema.particles
      exact h.pure _
  | c :: rest => by
      unfold Schema.particles
      refine of_ite ?_ (of_ite ?_ (of_ite ?_ (of_ite ?_ ?_)))
      · exact h.bind (elementParticle location c) fun _ => h.map _ (particles location rest)
      · exact h.bind (groupParticle location c) fun _ => h.map _ (particles location rest)
      · exact h.bind (h.groupRef location c) fun _ => h.map _ (particles location rest)
      · exact h.bind (h.occurs location c) fun _ => h.map _ (particles location rest)
      · exact h.bind (h.note _ _) fun _ => particles location rest

theorem elementParticle (location : String) : ∀ c : Construct,
    P (Schema.elementParticle setting location c)
  | .mk name attributes bindings documentation children => by
      unfold Schema.elementParticle
      refine h.bind (h.occurs location _) fun bounds => h.bind (h.name? _ _) fun reference => ?_
      cases reference with
      | some name => exact h.pure _
      | none =>
          exact h.bind (h.required location _ _) fun name => h.bind (h.namedType _) fun named =>
            h.bind (elementType _ named children) fun type => h.map _ (h.elementOf _ _ _ _ type)

theorem elementType (location : String) (type : ElementType) : ∀ constructs : List Construct,
    P (Schema.elementType setting location type constructs)
  | [] => by
      unfold Schema.elementType
      exact h.pure _
  | .mk name attributes bindings documentation children :: rest => by
      unfold Schema.elementType
      refine of_ite ?_ (of_ite ?_ ?_)
      · exact h.bind (h.simpleType location children) fun _ => elementType location _ rest
      · exact h.bind (h.attributeUses location children) fun _ =>
          h.bind (complexParts location _ children) fun _ => elementType location _ rest
      · exact h.bind (h.note _ _) fun _ => elementType location type rest

end

/-! ### Documents -/

theorem complexType (location : String) (c : Construct) :
    P (Schema.complexType setting location c) :=
  h.bind (h.attributeUses location c.children) fun _ => h.complexParts location _ c.children

theorem globalElement (name location : String) (c : Construct) :
    P (Schema.globalElement setting name location c) :=
  h.bind (h.namedType c) fun named => h.bind (h.elementType location named c.children) fun _ =>
    h.elementOf _ _ location c _

theorem topLevel (schema : Schema) (c : Construct) : P (Schema.topLevel setting schema c) := by
  unfold Schema.topLevel
  refine of_ite (h.pure _) (of_ite (h.pure _) (of_ite ?_ (of_ite ?_ (of_ite ?_ (of_ite ?_ (of_ite ?_
    (of_ite ?_ (of_ite ?_ ?_))))))))
  · exact h.map _ (h.note _ _)
  · exact h.bind (h.required _ c _) fun _ => h.map _ (h.simpleType _ c.children)
  · exact h.bind (h.required _ c _) fun _ => h.map _ (h.complexType _ c)
  · exact h.bind (h.required _ c _) fun _ => h.map _ (h.globalElement _ _ c)
  · refine h.bind (h.required _ c _) fun name => ?_
    dsimp only
    split
    · exact h.malformed _
    · exact h.map _ (h.particles _ _)
  · exact h.bind (h.required _ c _) fun _ => h.map _ (h.attributeOf _ _ _ c)
  · exact h.bind (h.required _ c _) fun _ => h.map _ (h.attributeUses _ c.children)
  · exact h.map _ (h.note _ _)

theorem topLevels (schema : Schema) : ∀ constructs : List Construct,
    P (Schema.topLevels setting schema constructs)
  | [] => h.pure schema
  | c :: rest => h.bind (h.topLevel schema c) fun schema => topLevels schema rest

end Reading.IsClosed

/-! ### Plain readings -/

/-- What was noted before does not matter to the reading, and what it notes is about a file and not
fatal. -/
structure Reading.Plain (filename : String) {α : Type} (c : Reading α) : Prop where
  about : ∀ a notes, c [] = .ok (a, notes) →
    ∀ p ∈ notes, p.filename = filename ∧ p.isFatal = false
  independent : ∀ notes, c notes = (c []).map fun r => (r.1, notes ++ r.2)

namespace Reading.Plain

variable {α β : Type} {filename : String}

theorem pure (a : α) : Plain filename (Pure.pure a : Reading α) where
  about b notes hb p hp := by
    obtain ⟨-, rfl⟩ := Prod.mk.inj (Except.ok.inj hb)
    exact absurd hp List.not_mem_nil
  independent notes := congrArg (fun n => Except.ok (a, n)) (List.append_nil notes).symm

theorem bind {c : Reading α} {f : α → Reading β} (hc : Plain filename c)
    (hf : ∀ a, Plain filename (f a)) : Plain filename (c >>= f) := by
  have hrun : ∀ notes, (c >>= f) notes = match c [] with
      | .ok (a, first) => (f a []).map fun r => (r.1, notes ++ first ++ r.2)
      | .error reason => .error reason := fun notes => by
    change (c notes >>= fun r => f r.1 r.2) = _
    rw [hc.independent]
    rcases c [] with reason | ⟨a, first⟩
    · rfl
    · exact (hf a).independent (notes ++ first)
  refine ⟨fun b rest hb p hp => ?_, fun notes => ?_⟩
  · rw [hrun] at hb
    rcases hr : c [] with reason | ⟨a, first⟩
    · rw [hr] at hb
      exact nomatch hb
    · rw [hr] at hb
      dsimp only at hb
      rcases hs : f a [] with reason | ⟨b', more⟩
      · rw [hs] at hb
        exact nomatch hb
      · rw [hs] at hb
        obtain ⟨-, rfl⟩ := Prod.mk.inj (Except.ok.inj hb)
        rcases List.mem_append.1 hp with hp | hp
        · exact hc.about a first hr p hp
        · exact (hf a).about b' more hs p hp
  · rw [hrun, hrun]
    rcases c [] with reason | ⟨a, first⟩
    · rfl
    · rcases hs : f a [] with reason | ⟨b, more⟩
      · simp only [hs]
        rfl
      · simp only [hs, Except.map, List.append_assoc, List.nil_append]

theorem isClosed (setting : Setting) : IsClosed setting (@Plain setting.filename) where
  pure := pure
  malformed reason := ⟨fun _ _ h => (nomatch h), fun _ => rfl⟩
  note location construct := {
    about := fun a notes h p hp => by
      obtain ⟨-, rfl⟩ := Prod.mk.inj (Except.ok.inj h)
      exact List.mem_singleton.1 hp ▸ ⟨rfl, rfl⟩
    independent := fun _ => rfl }
  bind := bind

end Reading.Plain

variable {filename text : String}

/-- What is noted when a file is read is about the file, and not fatal. -/
theorem about_of_ofText {schema : Schema} {notes : List Problem}
    (h : ofText filename text = .ok (schema, notes)) :
    ∀ p ∈ notes, p.filename = filename ∧ p.isFatal = false := by
  unfold ofText at h
  split at h
  · exact nomatch h
  · next root _ =>
      split at h
      · dsimp only at h
        split at h
        · next result hr =>
            obtain rfl := Except.ok.inj h
            exact ((Reading.Plain.isClosed (Setting.ofRoot filename (.ofXml root))).topLevels
              _ _).about _ _ hr
        · exact nomatch h
      · exact nomatch h

/-- A file that cannot be read is malformed. -/
theorem malformed_of_ofText {p : Problem} (h : ofText filename text = .error p) :
    ∃ reason, p = .malformed filename reason := by
  unfold ofText at h
  split at h
  · exact ⟨_, (Except.error.inj h).symm⟩
  · split at h
    · dsimp only at h
      split at h
      · exact nomatch h
      · exact ⟨_, (Except.error.inj h).symm⟩
    · exact ⟨_, (Except.error.inj h).symm⟩

end Schema

end Crosswalk
