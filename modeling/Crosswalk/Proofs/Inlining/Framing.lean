import Crosswalk.Proofs.Inlining.Reference

/-!
# Content behind other content

What a model group adds to a shape does not depend on what is there, as long as none of its names
is: the group stands behind it as it would stand on its own. So where no group is referred to, the
conversion of a group in the middle of a type comes to a problem whenever that of the group alone
does, and otherwise to the same members behind the others.
-/

namespace Crosswalk

namespace Conversion

variable {α β γ δ : Type}

/-- From the same declarations, both conversions result in something related, or none of them
does. -/
structure Tied (c : Conversion α) (d : Conversion β) (R : α → β → Prop) : Prop where
  forth : Agree Eq (fun _ _ => True) c d R
  back : Agree Eq (fun _ _ => True) d c fun b a => R a b

theorem enters_same (kind : Expandable) : Enters Eq (fun _ _ => True) kind where
  starts _ _ _ h := congrArg _ h
  stays _ _ _ h _ := ⟨fun _ hm => h ▸ hm, trivial⟩

namespace Tied

variable {c : Conversion α} {d : Conversion β} {R : α → β → Prop}

theorem pure {a : α} {b : β} (h : R a b) : Tied (Pure.pure a) (Pure.pure b) R :=
  ⟨Agree.pure h, Agree.pure h⟩

theorem throw {p q : Problem} :
    Tied (MonadExcept.throw p : Conversion α) (MonadExcept.throw q : Conversion β) R :=
  ⟨Agree.throw, Agree.throw⟩

theorem refl {c : Conversion α} (h : Steady c) : Tied c c Eq := by
  have own : Agree Eq (fun _ _ => True) c c Eq := by
    intro s t a s' hv ha _
    obtain ⟨hsame, hs⟩ := h s t hv
    have ht := (h t t rfl).2
    rw [ha] at hsame hs
    refine ⟨a, (run c t).2, Prod.ext hsame.symm rfl, hs, ht, rfl⟩
  exact ⟨own, own.mono fun _ _ => Eq.symm⟩

theorem bind {f : α → Conversion γ} {g : β → Conversion δ} {Q : γ → δ → Prop} (h : Tied c d R)
    (hf : ∀ a b, R a b → Tied (f a) (g b) Q) : Tied (c >>= f) (d >>= g) Q :=
  ⟨h.forth.bind fun a b hab => (hf a b hab).forth, h.back.bind fun b a hab => (hf a b hab).back⟩

/-- What comes behind conversions that always do the same. -/
theorem after {a : α} {b : β} {f : α → Conversion γ} {g : β → Conversion δ} {Q : γ → δ → Prop}
    (hc : Does c a) (hd : Does d b) (h : Tied (f a) (g b) Q) : Tied (c >>= f) (d >>= g) Q :=
  ⟨.after hc hd h.forth, .after hd hc h.back⟩

theorem of_does {a : α} {b : β} (hc : Does c a) (hd : Does d b) (h : R a b) : Tied c d R :=
  ⟨.of_does hc hd h, .of_does hd hc h⟩

theorem visiting {kind : Expandable} {scope scope' : File} {name : QName} (h : Tied c d R) :
    Tied (Conversion.visiting kind scope name c) (Conversion.visiting kind scope' name d) R :=
  ⟨h.forth.visiting (enters_same kind), h.back.visiting (enters_same kind)⟩

theorem found {scope scope' : File} {referencing referencing' : String} {name name' : QName}
    (result : Option α) : Tied (Conversion.found scope referencing name result)
      (Conversion.found scope' referencing' name' result) Eq :=
  ⟨(Agree.found result).mono fun _ _ => And.left,
    (Agree.found result).mono fun _ _ h => h.1.symm⟩

end Tied

/-! ### Content -/

/-- Groups are expanded behind a frame as they are on their own. -/
def Frames (frame : Shape) (expand : Expansions) : Prop :=
  ∀ site located bounds nested nested' {m a}, Shape.Framed frame m a →
    Tied (expand.group site located bounds nested m) (expand.group site located bounds nested' a)
      (Shape.Framed frame)

section

variable {context : Context} {frame : Shape} {expand : Expansions}

theorem tied_collectGroupRef (hu : ∀ name, context.linkage.isReused name = false)
    (he : Frames frame expand) (site : Site) (reference : QName) (bounds : Bounds)
    (nested nested' : Bool) {m a : Shape} (h : Shape.Framed frame m a) :
    Tied (collectGroupRef context expand site reference bounds nested m)
      (collectGroupRef context expand site reference bounds nested' a) (Shape.Framed frame) := by
  unfold collectGroupRef
  refine (Tied.found _).bind fun located located' hl => ?_
  subst hl
  refine Tied.visiting ?_
  simp only [hu, Bool.and_false, Bool.false_eq_true, if_false]
  exact he site located bounds nested nested' h

theorem tied_addElement (site : Site) (name : String) (slot : Slot) {m a : Shape}
    (h : Shape.Framed frame m a) : Tied (addElement context site name slot m)
      (addElement context site name slot a) (Shape.Framed frame) :=
  .of_does (does_addElement _ _ _ _ _) (does_addElement _ _ _ _ _) (h.addElement _ _ _)

mutual

theorem tied_collectParticle (hu : ∀ name, context.linkage.isReused name = false)
    (he : Frames frame expand) (hs : expand.In @Steady) (site : Site) (outer : Bounds)
    (nested nested' : Bool) {m a : Shape} (h : Shape.Framed frame m a) : ∀ p : Particle,
      Tied (collectParticle context expand site outer nested m p)
        (collectParticle context expand site outer nested' a p) (Shape.Framed frame)
  | ⟨least, most, term⟩ => by
      unfold collectParticle
      dsimp only
      split
      · exact Tied.pure h
      · exact tied_collectTerm hu he hs site _ nested nested' h term

theorem tied_collectTerm (hu : ∀ name, context.linkage.isReused name = false)
    (he : Frames frame expand) (hs : expand.In @Steady) (site : Site) (bounds : Bounds)
    (nested nested' : Bool) {m a : Shape} (h : Shape.Framed frame m a) : ∀ term : Term,
      Tied (collectTerm context expand site bounds nested m term)
        (collectTerm context expand site bounds nested' a term) (Shape.Framed frame)
  | .element declaration => by
      unfold collectTerm
      refine (Tied.refl (isClosed_steady.elementSchema context expand hs _ declaration)).bind
        fun item item' hi => ?_
      subst hi
      exact tied_addElement site _ _ h
  | .elementRef reference => by
      unfold collectTerm
      refine (Tied.found _).bind fun located located' hl => ?_
      subst hl
      exact tied_addElement site _ _ h
  | .group group => by
      unfold collectTerm
      exact tied_collectGroup hu he hs site bounds nested nested' h group
  | .groupRef reference => by
      unfold collectTerm
      exact tied_collectGroupRef hu he site reference bounds nested nested' h
  | .any => by
      unfold collectTerm
      exact Tied.pure h.opened

theorem tied_collectGroup (hu : ∀ name, context.linkage.isReused name = false)
    (he : Frames frame expand) (hs : expand.In @Steady) (site : Site) (bounds : Bounds)
    (nested nested' : Bool) {m a : Shape} (h : Shape.Framed frame m a) : ∀ group : ModelGroup,
      Tied (collectGroup context expand site bounds nested m group)
        (collectGroup context expand site bounds nested' a group) (Shape.Framed frame)
  | ⟨.choice, particles⟩ => by
      unfold collectGroup
      split
      · exact .after (does_diagnose _ _ _ _) (does_diagnose _ _ _ _)
          (tied_collectParticles hu he hs site bounds.orNone nested nested' h particles)
      · refine (Tied.refl (isClosed_steady.collectBranches context expand hs site _ particles)).bind
          fun branches branches' hb => ?_
        subst hb
        exact .of_does (does_addChoice _ _ _ _ _) (does_addChoice _ _ _ _ _) (h.withChoice _ _)
  | ⟨.sequence, particles⟩ => by
      unfold collectGroup
      exact tied_collectParticles hu he hs site bounds nested nested' h particles
  | ⟨.all, particles⟩ => by
      unfold collectGroup
      exact tied_collectParticles hu he hs site bounds nested nested' h particles

theorem tied_collectParticles (hu : ∀ name, context.linkage.isReused name = false)
    (he : Frames frame expand) (hs : expand.In @Steady) (site : Site) (outer : Bounds)
    (nested nested' : Bool) {m a : Shape} (h : Shape.Framed frame m a) :
    ∀ particles : List Particle,
      Tied (collectParticles context expand site outer nested m particles)
        (collectParticles context expand site outer nested' a particles) (Shape.Framed frame)
  | [] => by
      unfold collectParticles
      exact Tied.pure h
  | p :: rest => by
      unfold collectParticles
      exact (tied_collectParticle hu he hs site outer nested nested' h p).bind fun _ _ h =>
        tied_collectParticles hu he hs site outer nested nested' h rest

end

theorem frames_expansions (hu : ∀ name, context.linkage.isReused name = false) : ∀ depth : Nat,
    Frames frame (expansions context depth)
  | 0 => fun _ _ _ _ _ _ _ _ => Tied.throw
  | depth + 1 => fun _ located bounds nested nested' _ _ h =>
    tied_collectGroup hu (frames_expansions hu depth) (isClosed_steady.expansions context depth) _
      bounds nested nested' h located.declaration.group

end

end Conversion

end Crosswalk
