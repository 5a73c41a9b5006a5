import Crosswalk.Proofs.Conversion.Agree
import Crosswalk.Proofs.Validation.Same

/-!
# Simple types in two documents

What a simple type is converted to depends on the document only in the links to named types. Links
to one declaration are followed to the same effect from everywhere, so that the schemas accept the
same; and the value space, which literals are read in, is the same.
-/

namespace Crosswalk

open Json Check

namespace Conversion

variable {Home : Type} {follow : Follow Home} {home home' : Home}

/-- The context of a document, with other counts of how often model groups are referred to. -/
def contextWith (l : Linkage) (o : Options) (uses : Table QName Nat) (file : File) : Context :=
  ⟨{ l with groupUses := uses }, o, file⟩

/-- Links to one declaration are followed to the same effect from both documents. -/
structure ReadsAlike (l : Linkage) (o : Options) (follow : Follow Home) (home home' : Home)
    (f g : File) : Prop where
  blind : IsBlind follow
  type : ∀ {scope : File} {name : QName} {located : Located NamedType},
    l.type? scope name = some located → AcceptsSame follow home home'
      (linkTo ⟨l, o, f⟩ located.file "definitions" located.declaration.name.name)
      (linkTo ⟨l, o, g⟩ located.file "definitions" located.declaration.name.name)
  element : ∀ {scope : File} {name : QName} {located : Located Element},
    l.element? scope name = some located → AcceptsSame follow home home'
      (linkTo ⟨l, o, f⟩ located.file "properties" located.declaration.name.name)
      (linkTo ⟨l, o, g⟩ located.file "properties" located.declaration.name.name)

theorem ReadsAlike.symm {l : Linkage} {o : Options} {f g : File}
    (h : ReadsAlike l o follow home home' f g) : ReadsAlike l o follow home' home g f :=
  ⟨h.blind, fun hl => (h.type hl).symm, fun hl => (h.element hl).symm⟩

/-- Flattened simple types whose items or members accept the same. -/
inductive SameShape (follow : Follow Home) (home home' : Home) :
    SimpleShape → SimpleShape → Prop where
  | atomic (datatype : Datatype) (facets : FacetSet) :
    SameShape follow home home' (.atomic datatype facets) (.atomic datatype facets)
  | list {a b : Json} (facets : FacetSet) (h : AcceptsSame follow home home' a b) :
    SameShape follow home home' (.list a facets) (.list b facets)
  | union {as bs : List Json} (h : List.Forall₂ (AcceptsSame follow home home') as bs) :
    SameShape follow home home' (.union as) (.union bs)

namespace SameShape

variable {a b : SimpleShape} (h : SameShape follow home home' a b)
include h

theorem space : a.space = b.space := by cases h <;> rfl

theorem restrict (facets : List Facet) :
    SameShape follow home home' (a.restrict facets).1 (b.restrict facets).1 ∧
      (a.restrict facets).2 = (b.restrict facets).2 := by
  cases h with
  | atomic datatype inherited => exact ⟨.atomic _ _, rfl⟩
  | list inherited h => exact ⟨.list _ h, rfl⟩
  | union h => exact ⟨.union h, rfl⟩

theorem schema (hb : IsBlind follow) : SameType follow home home' a.schema b.schema := by
  cases h with
  | atomic datatype facets => exact .equal fun P => facets.membersAre_keywords datatype
  | list facets h =>
      have array := hb.sameFields_array h
        (show "items" ∉ "minItems" :: "maxItems" :: besideKeywords by simp [besideKeywords])
        (by simp [besideKeywords])
      exact .fields ((array.withKeyword hb (by simp [besideKeywords]) (fun _ _ _ _ _ _ => rfl)
        (by simp) (by simp) _).withKeyword hb (by simp [besideKeywords]) (fun _ _ _ _ _ _ => rfl)
        (by simp) (by simp) _)
  | union h =>
      exact .fields ⟨hb.acceptsSame_anyOf h, by simp [Table.keys],
        by simp [Table.keys, besideKeywords]⟩

end SameShape

theorem sameType_of_schemaOf? {name : String} {schema : Json}
    (h : Datatype.schemaOf? name = some schema) : SameType follow home home' schema schema := by
  unfold Datatype.schemaOf? at h
  split at h
  · obtain rfl := Option.some.inj h
    exact .equal fun P => MembersAre.nil
  · obtain ⟨d, -, rfl⟩ := Option.map_eq_some_iff.1 h
    exact .equal fun P => d.membersAre_fullKeywords

theorem does_recordIssues (context : Context) (scope : File) (typeName : String) :
    ∀ issues : List FacetIssue, Does (recordIssues context scope typeName issues) ()
  | [] => does_pure ()
  | issue :: rest => by
      refine Does.bind (a := ()) ?_ (does_recordIssues context scope typeName rest)
      unfold recordIssue
      split
      · split
        · exact does_record _
        · exact does_pure ()
      · exact does_diagnose context scope _ _

theorem does_noted (context : Context) (scope : File) (typeName : String) (report : Bool)
    (noted : SimpleShape × List FacetIssue) :
    Does (do
      let (shape, issues) := noted
      if report then recordIssues context scope typeName issues
      return shape) noted.1 := by
  cases report with
  | true => exact (does_recordIssues context scope typeName _).bind (does_pure _)
  | false => exact does_pure _

section

variable {l : Linkage} {o : Options} {f g : File} (u u' : Table QName Nat)

theorem agree_typeReference (reads : ReadsAlike l o follow home home' f g)
    {start sure : Visited → Visited → Prop} (scope : File) (name : QName)
    (referencing referencing' : String) :
    Agree start sure (typeReference (contextWith l o u f) scope name referencing)
      (typeReference (contextWith l o u' g) scope name referencing')
      (SameType follow home home') := by
  unfold typeReference
  split
  · refine (Agree.found _).mono fun a b hab => ?_
    obtain ⟨rfl, hs⟩ := hab
    exact sameType_of_schemaOf? hs
  · refine (Agree.found _).bind fun located located' hl => ?_
    obtain ⟨rfl, hl⟩ := hl
    exact Agree.pure (.links (reads.type hl))

theorem agree_builtinShape {start sure : Visited → Visited → Prop} (scope : File)
    (typeName typeName' : String) (name : QName) :
    Agree start sure (builtinShape scope typeName name) (builtinShape scope typeName' name)
      (SameShape follow home home') := by
  unfold builtinShape
  refine (Agree.found _).bind fun datatype datatype' hd => ?_
  obtain ⟨rfl, -⟩ := hd
  exact Agree.pure (.atomic _ _)

/-- Two ways to flatten a named simple type that come to the same, wherever both can enter one. -/
structure ExpandsAlike (start : Visited → Visited → Prop) (follow : Follow Home)
    (home home' : Home) (expand expand' : SimpleExpansion) : Prop where
  enters : Enters start (fun _ _ => True) .simple
  agree : ∀ located type, Agree start (fun _ _ => True) (expand located type)
    (expand' located type) (SameShape follow home home')

variable {start : Visited → Visited → Prop} {expand expand' : SimpleExpansion}

theorem agree_namedBase (he : ExpandsAlike start follow home home' expand expand') (scope : File)
    (typeName typeName' : String) (name : QName) : Agree start (fun _ _ => True)
      (namedBase (contextWith l o u f) expand scope typeName name)
      (namedBase (contextWith l o u' g) expand' scope typeName' name)
      (SameShape follow home home') := by
  unfold namedBase
  split
  · exact agree_builtinShape scope _ _ name
  · refine (Agree.found _).bind fun located located' hl => ?_
    obtain ⟨rfl, -⟩ := hl
    split
    · exact Agree.visiting he.enters (he.agree located _)
    · exact Agree.after (does_diagnose _ _ _ _) (does_diagnose _ _ _ _)
        (agree_builtinShape scope _ _ _)

mutual

theorem agree_shapeWith (reads : ReadsAlike l o follow home home' f g)
    (he : ExpandsAlike start follow home home' expand expand') (scope : File)
    (typeName typeName' : String) (report report' : Bool) :
    ∀ type : SimpleType,
      Agree start (fun _ _ => True)
        (shapeWith (contextWith l o u f) expand scope typeName report type)
        (shapeWith (contextWith l o u' g) expand' scope typeName' report' type)
        (SameShape follow home home')
  | .restriction base facets => by
      unfold shapeWith
      refine (agree_baseShape reads he scope typeName typeName' report report' base).bind
        fun a b hab => ?_
      exact Agree.of_does (does_noted _ _ _ report _) (does_noted _ _ _ report' _)
        (hab.restrict facets).1
  | .list item => by
      unfold shapeWith
      exact (agree_baseSchemaWith reads he scope typeName typeName' report report' item).bind
        fun a b hab => Agree.pure (.list _ hab.acceptsSame)
  | .union members => by
      unfold shapeWith
      exact (agree_memberSchemas reads he scope typeName typeName' report report' members).bind
        fun as bs hab => Agree.pure (.union hab)

theorem agree_baseShape (reads : ReadsAlike l o follow home home' f g)
    (he : ExpandsAlike start follow home home' expand expand') (scope : File)
    (typeName typeName' : String) (report report' : Bool) :
    ∀ base : SimpleBase,
      Agree start (fun _ _ => True)
        (baseShape (contextWith l o u f) expand scope typeName report base)
        (baseShape (contextWith l o u' g) expand' scope typeName' report' base)
        (SameShape follow home home')
  | .inline type => by
      unfold baseShape
      exact agree_shapeWith reads he scope typeName typeName' report report' type
  | .named name => by
      unfold baseShape
      exact agree_namedBase u u' he scope typeName typeName' name

theorem agree_baseSchemaWith (reads : ReadsAlike l o follow home home' f g)
    (he : ExpandsAlike start follow home home' expand expand') (scope : File)
    (typeName typeName' : String) (report report' : Bool) :
    ∀ base : SimpleBase,
      Agree start (fun _ _ => True)
        (baseSchemaWith (contextWith l o u f) expand scope typeName report base)
        (baseSchemaWith (contextWith l o u' g) expand' scope typeName' report' base)
        (SameType follow home home')
  | .named name => by
      unfold baseSchemaWith
      exact agree_typeReference u u' reads scope name _ _
  | .inline type => by
      unfold baseSchemaWith
      exact (agree_shapeWith reads he scope typeName typeName' report report' type).bind
        fun a b hab => Agree.pure (hab.schema reads.blind)

theorem agree_memberSchemas (reads : ReadsAlike l o follow home home' f g)
    (he : ExpandsAlike start follow home home' expand expand') (scope : File)
    (typeName typeName' : String) (report report' : Bool) :
    ∀ members : List SimpleBase,
      Agree start (fun _ _ => True)
        (memberSchemas (contextWith l o u f) expand scope typeName report members)
        (memberSchemas (contextWith l o u' g) expand' scope typeName' report' members)
        (List.Forall₂ (AcceptsSame follow home home'))
  | [] => by
      unfold memberSchemas
      exact Agree.pure .nil
  | m :: rest => by
      unfold memberSchemas
      exact (agree_baseSchemaWith reads he scope typeName typeName' report report' m).bind
        fun a b hab => (agree_memberSchemas reads he scope typeName typeName' report report'
          rest).bind fun as bs hrest => Agree.pure (.cons hab.acceptsSame hrest)

end

theorem agree_expandSimple (hk : Enters start (fun _ _ => True) .simple)
    (reads : ReadsAlike l o follow home home' f g) : ∀ depth : Nat,
    ExpandsAlike start follow home home' (expandSimple (contextWith l o u f) depth)
      (expandSimple (contextWith l o u' g) depth)
  | 0 => ⟨hk, fun _ _ => Agree.throw⟩
  | depth + 1 => ⟨hk, fun located type =>
      agree_shapeWith u u' reads (agree_expandSimple hk reads depth) located.file
        located.declaration.name.name located.declaration.name.name false false type⟩

theorem agree_simpleShape (hk : Enters start (fun _ _ => True) .simple)
    (reads : ReadsAlike l o follow home home' f g) (scope : File) (typeName typeName' : String)
    (report report' : Bool) (type : SimpleType) :
    Agree start (fun _ _ => True)
      (simpleShape (contextWith l o u f) scope typeName report type)
      (simpleShape (contextWith l o u' g) scope typeName' report' type)
      (SameShape follow home home') :=
  agree_shapeWith u u' reads (agree_expandSimple u u' hk reads _) scope typeName typeName' report
    report' type

variable {sure : Visited → Visited → Prop}

theorem agree_simpleSchema (reads : ReadsAlike l o follow home home' f g) (scope : File)
    (typeName typeName' : String) (report : Bool) (type : SimpleType) :
    Agree AlikeSimple sure (simpleSchema (contextWith l o u f) scope typeName report type)
      (simpleSchema (contextWith l o u' g) scope typeName' report type)
      (SameType follow home home') :=
  (agree_simpleShape u u' enters_simple reads scope typeName typeName' report report
    type).of_true.bind fun _ _ hab => Agree.pure (hab.schema reads.blind)

theorem agree_baseSchema (reads : ReadsAlike l o follow home home' f g) (scope : File)
    (typeName : String) (base : SimpleBase) :
    Agree AlikeSimple sure (baseSchema (contextWith l o u f) scope typeName base)
      (baseSchema (contextWith l o u' g) scope typeName base) (SameType follow home home') := by
  cases base with
  | named name => exact agree_typeReference u u' reads scope name _ _
  | inline type => exact agree_simpleSchema u u' reads scope _ _ true type

/-! ### Literals -/

theorem agree_spaceOf? (reads : ReadsAlike l o follow home home' f g) (scope : File)
    (type : SimpleType) : Agree AlikeSimple sure (spaceOf? (contextWith l o u f) scope type)
      (spaceOf? (contextWith l o u' g) scope type) Eq := by
  have hspace : ∀ {u u' : Table QName Nat} {home home' : Home} {f g : File},
      ReadsAlike l o follow home home' f g →
      Agree AlikeSimple (fun _ _ => True)
        (do return some (← simpleShape (contextWith l o u f) scope "" false type).space)
        (do return some (← simpleShape (contextWith l o u' g) scope "" false type).space) Eq :=
    fun reads => (agree_simpleShape _ _ enters_simple reads scope "" "" false false type).bind
      fun _ _ hab => Agree.pure (congrArg some hab.space)
  exact Agree.tryCatch_pure (steady_map _ (isClosed_steady.simpleShape _ _ _ _ _))
    (steady_map _ (isClosed_steady.simpleShape _ _ _ _ _)) (hspace reads)
    ((hspace reads.symm).mono fun _ _ => Eq.symm) rfl

theorem agree_namedSpace? (reads : ReadsAlike l o follow home home' f g) (scope : File)
    (name : QName) : Agree AlikeSimple sure (namedSpace? (contextWith l o u f) scope name)
      (namedSpace? (contextWith l o u' g) scope name) Eq := by
  have hlinkage : (contextWith l o u f).linkage.type? scope name =
      (contextWith l o u' g).linkage.type? scope name := rfl
  unfold namedSpace?
  rw [hlinkage]
  split
  · exact Agree.pure rfl
  · split
    · exact Agree.pure rfl
    · split
      · exact agree_spaceOf? u u' reads _ _
      · exact Agree.pure rfl

theorem agree_literalSpace? (reads : ReadsAlike l o follow home home' f g) (scope : File)
    (type : ElementType) :
    Agree AlikeSimple sure (literalSpace? (contextWith l o u f) scope type)
      (literalSpace? (contextWith l o u' g) scope type) Eq := by
  cases type with
  | named name => exact agree_namedSpace? u u' reads scope name
  | simple type => exact agree_spaceOf? u u' reads scope type
  | complex type => exact Agree.pure rfl
  | any => exact Agree.pure rfl

theorem areBeside_append {documentation fixed default : Option String} (space : ValueSpace) :
    AreBeside (descriptionOf documentation ++
      (fixed.toList.map fun text => ("const", space.literal text)) ++
      (default.toList.map fun text => ("default", space.literal text))) := by
  refine ⟨?_, ?_, fun P member hm =>
    (isRemark_all documentation fixed default space member hm).memberSatisfies⟩
  · cases documentation <;> cases fixed <;> cases default <;>
      simp [descriptionOf, besideKeywords]
  · cases documentation <;> cases fixed <;> cases default <;> simp [descriptionOf]

theorem areBeside_descriptionOf (documentation : Option String) :
    AreBeside (descriptionOf documentation) := by
  simpa using @areBeside_append documentation none none .text

theorem agree_attributeSchema (reads : ReadsAlike l o follow home home' f g) (scope : File)
    (declaration : Attribute) (default fixed : Option String) :
    Agree AlikeSimple sure (attributeSchema (contextWith l o u f) scope declaration default fixed)
      (attributeSchema (contextWith l o u' g) scope declaration default fixed)
      (SameItem follow home home') := by
  unfold attributeSchema
  rcases declaration.type with _ | name | type
  · refine Agree.after (does_pure _) (does_pure _) (Agree.after (does_pure _) (does_pure _) ?_)
    obtain ⟨schema, hs⟩ := Option.isSome_iff_exists.1
      (show (Datatype.schemaOf? "anySimpleType").isSome = true by decide)
    rw [hs]
    exact Agree.pure ((sameType_of_schemaOf? hs).withKeywords reads.blind (areBeside_append _))
  · refine (agree_baseSchema u u' reads scope _ (.named name)).bind fun base base' hbase =>
      (agree_namedSpace? u u' reads scope name).bind fun space space' hspace => ?_
    subst hspace
    exact Agree.pure (hbase.withKeywords reads.blind (areBeside_append _))
  · refine (agree_baseSchema u u' reads scope _ (.inline type)).bind fun base base' hbase =>
      (agree_spaceOf? u u' reads scope type).bind fun space space' hspace => ?_
    subst hspace
    exact Agree.pure (hbase.withKeywords reads.blind (areBeside_append _))

end

end Conversion

end Crosswalk
