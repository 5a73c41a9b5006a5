import Crosswalk.Proofs.Conversion.Frame
import Crosswalk.Proofs.Counterpart.Linkage

/-!
# Conversions side by side

Two conversions are the same from inside of some declarations if they have the same result there,
whatever was noted before, note the same diagnostics and leave what they are inside of as it was.
There is one rule for each of the ways in which conversions are put together. The rule for
`visiting` tells that the declaration is a new one; so there can be room for it in the depth that
expansions have, which need not be the same on both sides.

What does not look anything up is the same wherever files and options are alike.
-/

namespace Crosswalk

namespace Conversion

variable {α β γ : Type}

/-- From inside of these declarations, two conversions do the same, and leave them as they were. -/
def SameFrom (v : Visited) (c d : Conversion α) : Prop :=
  ∀ s, s.visited = v → run c s = run d s ∧ (run c s).2.visited = v

namespace SameFrom

variable {v : Visited} {c d : Conversion α}

theorem of_eq (hc : Steady c) (h : c = d) : SameFrom v c d :=
  fun s hs => ⟨h ▸ rfl, (hc s s rfl).2.trans hs⟩

theorem pure (a : α) : SameFrom v (Pure.pure a) (Pure.pure a) := of_eq (steady_pure a) rfl

theorem throw (p : Problem) :
    SameFrom v (MonadExcept.throw p : Conversion α) (MonadExcept.throw p) :=
  of_eq (steady_throw p) rfl

theorem bind {f g : α → Conversion β} (h : SameFrom v c d) (hf : ∀ a, SameFrom v (f a) (g a)) :
    SameFrom v (c >>= f) (d >>= g) := by
  intro s hs
  obtain ⟨heq, hv⟩ := h s hs
  rw [run_bind, run_bind, ← heq]
  rcases hr : run c s with ⟨_ | a, t⟩
  · rw [hr] at hv
    exact ⟨rfl, hv⟩
  · rw [hr] at hv
    exact hf a t hv

theorem map (f : α → β) (h : SameFrom v c d) :
    SameFrom v (c >>= fun a => Pure.pure (f a)) (d >>= fun a => Pure.pure (f a)) :=
  h.bind fun a => pure (f a)

theorem ite {c' d' : Conversion α} {p : Prop} [Decidable p] (h : p → SameFrom v c d)
    (h' : ¬ p → SameFrom v c' d') : SameFrom v (if p then c else c') (if p then d else d') := by
  split
  · next hp => exact h hp
  · next hp => exact h' hp

/-- What was found on one side was found on the other side, too. -/
theorem found_bind {scope scope' : File} (hs : scope.filename = scope'.filename)
    {referencing : String} {name : QName} {R : α → β → Prop} {result : Option α}
    {result' : Option β} (h : Option.Rel R result result') {f : α → Conversion γ}
    {g : β → Conversion γ}
    (hf : ∀ a b, result = some a → R a b → SameFrom v (f a) (g b)) :
    SameFrom v (found scope referencing name result >>= f)
      (found scope' referencing name result' >>= g) := by
  cases h with
  | none =>
      unfold found
      rw [hs]
      exact throw _
  | some hab => exact hf _ _ rfl hab

theorem visiting {kind : Expandable} {scope scope' : File}
    (hs : scope.filename = scope'.filename) {name : QName}
    (h : name ∉ kind.of v → SameFrom (kind.set v (name :: kind.of v)) c d) :
    SameFrom v (Conversion.visiting kind scope name c)
      (Conversion.visiting kind scope' name d) := by
  intro s hv
  subst hv
  rw [run_visiting, run_visiting, hs]
  split
  · exact ⟨rfl, rfl⟩
  · next hn =>
      obtain ⟨heq, hinside⟩ := h hn (entering kind name s) rfl
      rw [heq] at hinside ⊢
      exact ⟨rfl, visited_leaving_entering kind name hinside⟩

theorem tryCatch {f g : Problem → Conversion α} (h : SameFrom v c d)
    (hf : ∀ p, SameFrom v (f p) (g p)) :
    SameFrom v (MonadExcept.tryCatch c f) (MonadExcept.tryCatch d g) := by
  intro s hs
  obtain ⟨heq, hv⟩ := h s hs
  rw [run_tryCatch, run_tryCatch, ← heq]
  rcases hr : run c s with ⟨p | a, t⟩
  · rw [hr] at hv
    exact hf p t hv
  · rw [hr] at hv
    exact ⟨rfl, hv⟩

end SameFrom

/-! ### Contexts -/

/-- Two batches correspond, and the documents of twins are made with the same options. Prefixes
have to be the same only if names are written with them. -/
structure Context.Corresponds (context context' : Context) : Prop where
  linkage : context.linkage.Corresponds context'.linkage
  file : context.linkage.Twins context'.linkage context.file context'.file
  qualified : context.options.qualifiedPropertyNames = context'.options.qualifiedPropertyNames
  closed : context.options.isClosed = context'.options.isClosed
  text : context.options.textProperty = context'.options.textProperty
  prefixes : context.options.qualifiedPropertyNames = true →
    ∀ {f g : File}, context.linkage.Twins context'.linkage f g →
      f.schema.prefixes = g.schema.prefixes

/-- Files of two contexts that are alike. -/
abbrev Context.Twins (context context' : Context) : File → File → Prop :=
  context.linkage.Twins context'.linkage

/-- The same place in twins. -/
structure Site.Beside (context context' : Context) (site site' : Site) : Prop where
  scope : context.Twins context' site.scope site'.scope
  location : site.location = site'.location

variable {context context' : Context} {f g : File} {site site' : Site}

theorem Site.Beside.move (h : site.Beside context context' site') {location : String} :
    (Site.mk site.scope location).Beside context context' ⟨site'.scope, location⟩ :=
  ⟨h.scope, rfl⟩

theorem Site.Beside.enter (h : site.Beside context context' site')
    (hf : context.Twins context' f g) :
    (Site.mk f site.location).Beside context context' ⟨g, site'.location⟩ :=
  ⟨hf, h.location⟩

namespace Context.Corresponds

variable (h : context.Corresponds context')
include h

theorem beside (location : String) :
    (Site.mk context.file location).Beside context context' ⟨context'.file, location⟩ :=
  ⟨h.file, rfl⟩

theorem isOwn (hf : context.Twins context' f g) : isOwn context f = isOwn context' g := by
  rw [Conversion.isOwn, Conversion.isOwn, hf.filename, h.file.filename]

theorem diagnose (hf : context.Twins context' f g) (location construct : String) :
    diagnose context f location construct = Conversion.diagnose context' g location construct := by
  rw [Conversion.diagnose, Conversion.diagnose, h.isOwn hf, hf.filename]

theorem site_diagnose (hs : site.Beside context context' site') (construct : String) :
    site.diagnose context construct = site'.diagnose context' construct := by
  rw [Site.diagnose, Site.diagnose, hs.location, h.diagnose hs.scope]

theorem linkTo (hf : context.Twins context' f g) (sectionName name : String) :
    linkTo context f sectionName name = Conversion.linkTo context' g sectionName name := by
  rw [Conversion.linkTo, Conversion.linkTo, h.isOwn hf, hf.identifier]

theorem propertyName (hf : context.Twins context' f g) (name : QName) (qualified : Bool) :
    propertyName context f name qualified =
      Conversion.propertyName context' g name qualified := by
  rw [Conversion.propertyName, Conversion.propertyName, ← h.qualified]
  cases hq : context.options.qualifiedPropertyNames with
  | false => rfl
  | true => rw [Schema.prefixFor?, Schema.prefixFor?, Schema.prefixFor?, Schema.prefixFor?,
      h.prefixes hq hf, h.prefixes hq h.file]

theorem objectSchema (shape : Shape) :
    objectSchema context shape = Conversion.objectSchema context' shape := by
  rw [Conversion.objectSchema, Conversion.objectSchema, h.closed, h.text]

theorem recordIssue (hf : context.Twins context' f g) (typeName : String) (issue : FacetIssue) :
    recordIssue context f typeName issue = Conversion.recordIssue context' g typeName issue := by
  cases issue with
  | widening facet baseValue value =>
      rw [Conversion.recordIssue, Conversion.recordIssue, h.isOwn hf, hf.filename]
  | _ => exact h.diagnose hf _ _

theorem recordIssues (hf : context.Twins context' f g) (typeName : String)
    (issues : List FacetIssue) :
    recordIssues context f typeName issues =
      Conversion.recordIssues context' g typeName issues := by
  induction issues with
  | nil => rfl
  | cons issue rest ih =>
      rw [Conversion.recordIssues, Conversion.recordIssues, h.recordIssue hf, ih]

theorem addElement (hs : site.Beside context context' site') (name : String) (slot : Slot)
    (shape : Shape) :
    addElement context site name slot shape =
      Conversion.addElement context' site' name slot shape := by
  simp only [Conversion.addElement, h.site_diagnose hs]

theorem addAttribute (hs : site.Beside context context' site') (name : String) (slot : Slot)
    (shape : Shape) :
    addAttribute context site name slot shape =
      Conversion.addAttribute context' site' name slot shape := by
  simp only [Conversion.addAttribute, h.site_diagnose hs]

theorem joinMembers (hs : site.Beside context context' site') (outside : List String)
    (shape : Shape) (members : List (String × Slot)) :
    joinMembers context site outside shape members =
      Conversion.joinMembers context' site' outside shape members := by
  induction members generalizing shape with
  | nil => rfl
  | cons member rest ih =>
      rw [Conversion.joinMembers, Conversion.joinMembers, h.addElement hs]
      simp only [ih]

theorem joinBranches (hs : site.Beside context context' site') (outside : List String)
    (shape : Shape) (branches : List Shape) :
    joinBranches context site outside shape branches =
      Conversion.joinBranches context' site' outside shape branches := by
  induction branches generalizing shape with
  | nil => rfl
  | cons branch rest ih =>
      rw [Conversion.joinBranches, Conversion.joinBranches, h.joinMembers hs]
      simp only [ih]

theorem addChoice (hs : site.Beside context context' site') (obliged : Bool)
    (branches : List Shape) (shape : Shape) :
    addChoice context site obliged branches shape =
      Conversion.addChoice context' site' obliged branches shape := by
  simp only [Conversion.addChoice, h.site_diagnose hs, h.joinBranches hs]

end Context.Corresponds

end Conversion

end Crosswalk
