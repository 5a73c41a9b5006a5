import Crosswalk.Proofs.Content.Conflicts
import Crosswalk.Proofs.Content.Objects

/-!
# Complex types and their words

The constraints of a complex type are right for all words of its content model exactly if its
choices are apart from their surroundings. If they are, no word is refused, however its names repeat
and in whatever order the particles stand; if they are not, and the content model has words and real
choices at all, some word is refused.
-/

namespace Crosswalk

/-! ### Content made of particles -/

/-- The content is empty or made of elements, sequences, all-groups and choices. -/
def Content.IsPlain : Content → Prop
  | .empty => True
  | .particle p => p.IsPlain
  | _ => False

/-- The words of content. -/
def Content.Admits (key : Element → String) : Content → Word → Prop
  | .empty, w => w = []
  | .particle p, w => p.Admits key w
  | _, _ => False

/-- No name of a choice which is a constraint occurs beside the choice. -/
def Content.IsSeparate (key : Element → String) : Content → Prop
  | .particle p => p.IsSeparate key .one
  | _ => True

/-- There are words, and each choice which is a constraint is one between exclusive branches. -/
def Content.IsProper (key : Element → String) : Content → Prop
  | .particle p => p.IsProper key .one
  | _ => True

instance (content : Content) : Decidable content.IsPlain :=
  match content with
  | .empty => isTrue True.intro
  | .particle p => inferInstanceAs (Decidable p.IsPlain)
  | .extension _ _ => isFalse id
  | .restriction _ _ => isFalse id
  | .simple _ _ _ => isFalse id

instance (key : Element → String) (content : Content) : Decidable (content.IsSeparate key) :=
  match content with
  | .particle p => inferInstanceAs (Decidable (p.IsSeparate key .one))
  | .empty => isTrue True.intro
  | .extension _ _ => isTrue True.intro
  | .restriction _ _ => isTrue True.intro
  | .simple _ _ _ => isTrue True.intro

instance (key : Element → String) (content : Content) : Decidable (content.IsProper key) :=
  match content with
  | .particle p => inferInstanceAs (Decidable (p.IsProper key .one))
  | .empty => isTrue True.intro
  | .extension _ _ => isTrue True.intro
  | .restriction _ _ => isTrue True.intro
  | .simple _ _ _ => isTrue True.intro

namespace Conversion

open Shape

variable {context : Context} {expand : Expansions} {site : Site} {type : ComplexType}

/-- The shape of content takes part in that of its type. -/
theorem yields_collectComplex_overlays {P : Shape → Prop}
    (hc : Yields (collectContent context expand site .everything {} type.content)
      fun s => s.IsElemental ∧ P s) :
    Yields (collectComplex context expand site .everything {} type)
      fun r => ∃ s, s.IsElemental ∧ P s ∧ Overlays s r := by
  obtain ⟨content, attributes, anyAttribute, mixed⟩ := type
  have tail := hc.bind fun s hs =>
    (yields_collectAttributes_overlays context hs.1 site attributes).bind fun r hr =>
      show Yields (pure (if anyAttribute then { r with isOpen := true } else r))
          (fun r => ∃ s, s.IsElemental ∧ P s ∧ Overlays s r) from by
        refine Yields.pure ⟨s, hs.1, hs.2, ?_⟩
        split
        · exact hr.opened true
        · exact hr
  unfold collectComplex
  exact Yields.ite (Yields.bind_any fun _ => tail) tail

theorem within_once_of_admits {A : Word → Prop} {w : Word} (h : A w) : Within .once A w :=
  ⟨1, Bounds.allows_once, Word.repeats_one h⟩

/-- The shape of a type whose choices are apart takes the words of its content. -/
theorem yields_takes (hp : type.content.IsPlain)
    (hsep : type.content.IsSeparate (elementKey context site.scope)) {w : Word}
    (hw : type.content.Admits (elementKey context site.scope) w)
    (hl : w.length ≤ Count.greatest) :
    Yields (collectComplex context expand site .everything {} type) (Takes context · w) := by
  refine (yields_collectComplex_overlays (P := fun s => s.groups = [] ∧ s.text = none ∧
    (∀ choice ∈ s.choices, IsChoice choice) ∧ ∃ free, (∀ name ∈ free, name ∈ s.names) ∧
      s.Fits free w) ?_).mono fun r ⟨s, hs, ⟨hg, ht, hm, free, hfree, hf⟩, ho⟩ =>
    takes_of_fits hs ho hg ht hm hfree hf hl
  cases hcontent : type.content with
  | empty =>
      rw [hcontent] at hw
      obtain rfl : w = [] := hw
      refine Yields.pure ⟨isElemental_empty, rfl, rfl, fun _ h => absurd h List.not_mem_nil, [],
        fun _ h => absurd h List.not_mem_nil, fits_empty⟩
  | particle p =>
      rw [hcontent] at hp hsep hw
      unfold collectContent
      refine (yields_collectParticle_grows rfl .once false isElemental_empty p hp hsep).mono
        fun s hs => ⟨hs.elemental, hs.groups, hs.text, fun choice hc => ?_, _, fun name hn => ?_,
          hs.fits [] [] w (fun _ _ => List.not_mem_nil) (fun _ _ => List.not_mem_nil) fits_empty
            (within_once_of_admits hw)⟩
      · exact (hs.made choice hc).resolve_left List.not_mem_nil
      · exact (hs.names name).2 (.inr (Particle.choiceNames_subset p name hn))
  | extension => rw [hcontent] at hp; exact hp.elim
  | restriction => rw [hcontent] at hp; exact hp.elim
  | simple => rw [hcontent] at hp; exact hp.elim

/-- A word that is represented has its names in the object. -/
theorem not_takes_of_refuses {s r : Shape} (hg : r.groups = [])
    (hm : ∀ choice ∈ r.choices, IsChoice choice) (hs : s.choices = r.choices) {w : Word}
    (h : s.Refuses w) : ¬ r.Takes context w := by
  intro ht
  obtain ⟨entries, he⟩ := ht.represented
  obtain ⟨choice, hc, hu⟩ := h entries fun name hpos => by
    obtain ⟨slot, hslot, ha⟩ := he.complete name hpos
    rw [he.contains hslot ha]
    exact decide_eq_true hpos
  exact not_acceptsBut_properties hg hm (hs ▸ hc) hu (fun (_ : Unit) _ _ _ => []) ()
    (ht.whole entries he Unit _ ())

/-- The shape of a proper type whose choices are not apart does not take all words. -/
theorem yields_not_takes (hp : type.content.IsPlain)
    (hx : type.content.IsProper (elementKey context site.scope))
    (hsep : ¬ type.content.IsSeparate (elementKey context site.scope)) :
    Yields (collectComplex context expand site .everything {} type) fun r =>
      ∃ w, type.content.Admits (elementKey context site.scope) w ∧ ¬ r.Takes context w := by
  refine (yields_collectComplex_overlays (P := fun s => s.groups = [] ∧
    (∀ choice ∈ s.choices, IsChoice choice) ∧ ∃ w,
      type.content.Admits (elementKey context site.scope) w ∧ s.Refuses w) ?_).mono
    fun r ⟨s, hs, ⟨hg, hm, w, hw, hr⟩, ho⟩ => ⟨w, hw, not_takes_of_refuses (ho.groups.trans hg)
      (ho.choices ▸ hm) ho.choices.symm hr⟩
  cases hcontent : type.content with
  | particle p =>
      rw [hcontent] at hp hx hsep
      unfold collectContent
      refine (yields_collectParticle_guards rfl .once false isElemental_empty p hp hx).mono
        fun s hs => ⟨hs.elemental, hs.groups, fun choice hc => ?_, ?_⟩
      · exact (hs.made choice hc).resolve_left List.not_mem_nil
      · exact (hs.clash hsep).imp fun u hu => ⟨hu.1, hu.2.2⟩
  | empty => rw [hcontent] at hsep; exact absurd True.intro hsep
  | extension => rw [hcontent] at hp; exact hp.elim
  | restriction => rw [hcontent] at hp; exact hp.elim
  | simple => rw [hcontent] at hp; exact hp.elim

/-- Where the choices of a type are apart from their surroundings, its schema takes every word of
its content model that can be counted. Where they are not, it takes all words only if the content
model has none, or has choices that leave nothing to choose. -/
theorem takes_words {s t : ConversionState} {shape : Shape}
    (h : run (collectComplex context expand site .everything {} type) s = (.ok shape, t))
    (hp : type.content.IsPlain) :
    (type.content.IsSeparate (elementKey context site.scope) →
      ∀ w, type.content.Admits (elementKey context site.scope) w → w.length ≤ Count.greatest →
        shape.Takes context w) ∧
    (type.content.IsProper (elementKey context site.scope) →
      (∀ w, type.content.Admits (elementKey context site.scope) w → shape.Takes context w) →
        type.content.IsSeparate (elementKey context site.scope)) := by
  refine ⟨fun hsep w hw hl => yields_takes hp hsep hw hl s t shape h, fun hx hall => ?_⟩
  by_contra hsep
  obtain ⟨w, hw, hnot⟩ := yields_not_takes hp hx hsep s t shape h
  exact hnot (hall w hw)

/-- A batch without declarations. -/
def bare : Context where
  linkage := ⟨⟨[]⟩, .strict, {}, []⟩
  options := {}
  file := ⟨"a.xsd", "a.json", "",
    ⟨"", .unqualified, .unqualified, [], [], none, [], [], [], [], []⟩⟩

/-- An element of any type. -/
def child (name : String) : Particle :=
  ⟨.one, .one, .element ⟨⟨"", name⟩, false, .any, false, none, none, none⟩⟩

/-- A choice of two elements, with further particles behind it. -/
def chooses (rest : List Particle) : ComplexType :=
  ⟨.particle ⟨.one, .one, .group ⟨.sequence,
    ⟨.one, .one, .group ⟨.choice, [child "b", child "c"]⟩⟩ :: rest⟩⟩, [], false, false⟩

/-- What such a type is converted to. -/
def chosen (rest : List Particle) : Except Problem Shape × ConversionState :=
  run (collectComplex bare (allExpansions bare) ⟨bare.file, ""⟩ .everything {} (chooses rest)) {}

theorem exists_of_isOk {α : Type} {r : Except Problem α × ConversionState} (h : r.1.isOk = true) :
    ∃ a t, r = (.ok a, t) := by
  obtain ⟨r, t⟩ := r
  cases r with
  | ok a => exact ⟨a, t, rfl⟩
  | error p => simp [Except.isOk, Except.toBool] at h

theorem chosen_apart : (chosen [child "a", child "a"]).1.isOk = true := by decide +kernel

theorem chosen_beside : (chosen [child "b"]).1.isOk = true := by decide +kernel

theorem takes_words_chooses :
    (∃ shape t, chosen [child "a", child "a"] = (.ok shape, t) ∧
      ∀ w, (chooses [child "a", child "a"]).content.Admits (elementKey bare bare.file) w →
        w.length ≤ Count.greatest → shape.Takes bare w) ∧
    ∃ shape t, chosen [child "b"] = (.ok shape, t) ∧
      ¬ ∀ w, (chooses [child "b"]).content.Admits (elementKey bare bare.file) w →
        shape.Takes bare w := by
  constructor
  · obtain ⟨shape, t, h⟩ := exists_of_isOk chosen_apart
    exact ⟨shape, t, h, (takes_words h (by decide)).1 (by decide)⟩
  · obtain ⟨shape, t, h⟩ := exists_of_isOk chosen_beside
    have hnot : ¬ (chooses [child "b"]).content.IsSeparate (elementKey bare bare.file) := by decide
    exact ⟨shape, t, h, fun hall => hnot ((takes_words h (by decide)).2 (by decide) hall)⟩

end Conversion

end Crosswalk
