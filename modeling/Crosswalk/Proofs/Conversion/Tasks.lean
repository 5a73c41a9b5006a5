import Crosswalk.Proofs.Conversion.Frame

/-!
# The tasks of a conversion

A conversion is put together from tasks that call each other: content models, bases, text and
attributes are taken into shapes, simple types are flattened, and elements and attributes become
schemas. Every task may end in a problem, at whatever depth it arises, and one of them goes on
without what it asked for. Here they are listed as data, so that what is true of all of them can be
said at once. The first such statement is that a task leaves no trace in the declarations that the
conversion is inside of, however it ends; and so nothing that is done before a task makes it a
cycle.
-/

namespace Crosswalk

namespace Conversion

/-! ### What a shape takes in -/

/-- What can be taken into a shape. -/
inductive Intake where
  | complex (inheritance : Inheritance) (type : ComplexType)
  | content (inheritance : Inheritance) (content : Content)
  /-- What complex content takes over from its base. -/
  | base (inheritance : Inheritance) (name : QName)
  /-- Simple content. -/
  | text (name : QName) (derivation : Derivation) (facets : List Facet)
  /-- A particle inside of something with bounds of its own, which may be a branch of a choice. -/
  | particle (outer : Bounds) (nested : Bool) (particle : Particle)
  | particles (outer : Bounds) (nested : Bool) (particles : List Particle)
  | term (bounds : Bounds) (nested : Bool) (term : Term)
  | group (bounds : Bounds) (nested : Bool) (group : ModelGroup)
  /-- A choice that is made once at most. -/
  | choice (bounds : Bounds) (particles : List Particle)
  | groupRef (bounds : Bounds) (nested : Bool) (reference : QName)
  | elementRef (bounds : Bounds) (reference : QName)
  | attributes (uses : List AttributeUse)

/-- Takes something into a shape. -/
def Intake.collect (context : Context) (expand : Expansions) (site : Site) (shape : Shape) :
    Intake → Conversion Shape
  | .complex inheritance type => collectComplex context expand site inheritance shape type
  | .content inheritance stated => collectContent context expand site inheritance shape stated
  | .base inheritance name => collectBase context expand site inheritance name shape
  | .text name derivation facets => collectText context expand site name derivation facets shape
  | .particle outer nested p => collectParticle context expand site outer nested shape p
  | .particles outer nested ps => collectParticles context expand site outer nested shape ps
  | .term bounds nested t => collectTerm context expand site bounds nested shape t
  | .group bounds nested g => collectGroup context expand site bounds nested shape g
  | .choice bounds ps => do
    let branches ← collectBranches context expand site { bounds with least := .one } ps
    addChoice context site bounds.isRequired branches shape
  | .groupRef bounds nested reference =>
    collectGroupRef context expand site reference bounds nested shape
  | .elementRef bounds reference => collectElementRef context site reference bounds shape
  | .attributes uses => collectAttributes context site uses shape

/-! ### Tasks -/

/-- What a conversion has to do at some point. -/
inductive Task where
  | intake (site : Site) (shape : Shape) (what : Intake)
  /-- A simple type to flatten. -/
  | simple (scope : File) (typeName : String) (report : Bool) (type : SimpleType)
  /-- What a restriction starts from. -/
  | simpleBase (scope : File) (typeName : String) (report : Bool) (base : SimpleBase)
  /-- The space of the values of a simple type, if there is any. -/
  | space (scope : File) (type : SimpleType)
  | elementSchema (site : Site) (element : Element)
  | attributeSchema (scope : File) (declaration : Attribute) (default fixed : Option String)

namespace Task

/-- What a task results in. -/
def Result : Task → Type
  | intake _ _ _ => Shape
  | simple _ _ _ _ => SimpleShape
  | simpleBase _ _ _ _ => SimpleShape
  | space _ _ => Option ValueSpace
  | elementSchema _ _ => Json
  | attributeSchema _ _ _ _ => Json

/-- Performs a task, with bases and groups that lie at most so deep inside each other. -/
def convert (context : Context) (depth : ℕ) : (task : Task) → Conversion task.Result
  | intake site shape i => i.collect context (expansions context depth) site shape
  | simple scope typeName report type => simpleShape context scope typeName report type
  | simpleBase scope typeName report base =>
    baseShape context (expandSimple context (simpleDepth context)) scope typeName report base
  | space scope type => spaceOf? context scope type
  | elementSchema site element =>
    Conversion.elementSchema context (expansions context depth) site element
  | attributeSchema scope declaration default fixed =>
    Conversion.attributeSchema context scope declaration default fixed

end Task

namespace IsClosed

variable (context : Context) {P : {α : Type} → Conversion α → Prop} (h : IsClosed context P)
include h

/-- Whatever is taken into a shape, a closed class contains it. -/
theorem collect {expand : Expansions} (he : expand.In P) (site : Site) (shape : Shape)
    (intake : Intake) : P (intake.collect context expand site shape) := by
  cases intake with
  | complex inheritance type => exact h.collectComplex context expand he site inheritance shape type
  | content inheritance content =>
      exact h.collectContent context expand he site inheritance shape content
  | base inheritance name => exact h.collectBase context expand he site inheritance name shape
  | text name derivation facets =>
      exact h.collectText context expand he site name derivation facets shape
  | particle outer nested p => exact h.collectParticle context expand he site outer nested shape p
  | particles outer nested ps =>
      exact h.collectParticles context expand he site outer nested shape ps
  | term bounds nested term => exact h.collectTerm context expand he site bounds nested shape term
  | group bounds nested group =>
      exact h.collectGroup context expand he site bounds nested shape group
  | choice bounds ps =>
      exact h.bind (h.collectBranches context expand he site _ ps) fun branches =>
        h.addChoice context site bounds.isRequired branches shape
  | groupRef bounds nested reference =>
      exact h.collectGroupRef context expand he site reference bounds nested shape
  | elementRef bounds reference => exact h.collectElementRef context site reference bounds shape
  | attributes uses => exact h.collectAttributes context site uses shape

/-- Every task belongs to every closed class. -/
theorem convert (depth : ℕ) (task : Task) : P (task.convert context depth) := by
  cases task with
  | intake site shape intake =>
      exact h.collect context (h.expansions context depth) site shape intake
  | simple scope typeName report type => exact h.simpleShape context scope typeName report type
  | simpleBase scope typeName report base =>
      exact h.baseShape context _ (h.expandSimple context _) scope typeName report base
  | space scope type => exact h.spaceOf? context scope type
  | elementSchema site element =>
      exact h.elementSchema context _ (h.expansions context depth) site element
  | attributeSchema scope declaration default fixed =>
      exact h.attributeSchema context scope declaration default fixed

end IsClosed

/-- A task leaves the declarations that the conversion is inside of exactly as they were, whatever
they were and whether it succeeds or ends in a problem, at whatever depth. So what any task results
in, be it a cycle, does not depend on the tasks that were performed before it from the same
state. -/
theorem visited_restored (context : Context) (depth : ℕ) (task : Task) (s : ConversionState) :
    (run (task.convert context depth) s).2.visited = s.visited ∧
      ∀ (depth' : ℕ) (next : Task),
        (run (next.convert context depth') (run (task.convert context depth) s).2).1 =
          (run (next.convert context depth') s).1 := by
  have steady : ∀ (depth : ℕ) (task : Task), Steady (task.convert context depth) :=
    isClosed_steady.convert context
  have restored := (steady depth task s s rfl).2
  exact ⟨restored, fun depth' next => (steady depth' next _ s restored).1⟩

end Conversion

end Crosswalk
