import Crosswalk.Proofs.Conversion.Cause

/-!
# Lookups of simple types and attributes

Nothing but the listed causes makes the conversion of a simple type or of attribute uses fail. The
induction is over the components of a schema on the one hand, and over how deep expansions may still
lie inside each other on the other; what is carried along is that there is room for every
declaration that the conversion is not inside of yet. The places where names are mentioned and the
places where they are looked up are compared construct by construct, together with the file that
each is looked up from.
-/

namespace Crosswalk

namespace Conversion

open Declarations

variable {context : Context} {v : Visited}

/-! ### Simple types -/

theorem isKnown_of_schemaOf? {name : String} (h : Datatype.isKnown name = true) :
    (Datatype.schemaOf? name).isSome = true := by
  unfold Datatype.schemaOf?
  unfold Datatype.isKnown at h
  split
  · rfl
  · next hn => simpa [hn] using h

theorem failsOnly_typeReference {scope : File} {name : QName} {location : String}
    {refs : List Reference} {mentions : List Mention}
    (h : Ready context.linkage v scope refs mentions) (hr : ⟨.type, name, location⟩ ∈ refs)
    (referencing : String) :
    FailsOnly v context.linkage.Causes (typeReference context scope name referencing) := by
  unfold typeReference
  split
  · next hb =>
      refine .found fun hn => h.missing _ hr ?_ referencing
      rw [Linkage.resolve?_builtin hb, if_neg fun hk => ?_]
      exact absurd (isKnown_of_schemaOf? hk) (by simp [hn])
  · next hb =>
      refine .found_bind (fun hn => ?_) fun located _ => .pure _
      exact h.not_found .types hr (.inl (Bool.eq_false_iff.2 hb)) hn referencing

theorem failsOnly_builtinShape {scope : File} {name : QName} {location : String}
    {refs : List Reference} {mentions : List Mention}
    (h : Ready context.linkage v scope refs mentions) (hr : ⟨.type, name, location⟩ ∈ refs)
    (hb : name.isBuiltin = true) (typeName : String) :
    FailsOnly v context.linkage.Causes (builtinShape scope typeName name) := by
  refine .found_bind (fun hn => h.missing _ hr ?_ _) fun _ _ => .pure _
  rw [Linkage.resolve?_builtin hb, if_neg fun hk => ?_]
  split at hn
  · exact absurd hn (by decide)
  · next hany => simp [Datatype.isKnown, hany, hn] at hk

/-- Simple types of which there is room for so many are expanded. -/
def ExpandsSimple (context : Context) (depth : Nat) (expand : SimpleExpansion) : Prop :=
  ∀ (v : Visited) (located : Located NamedType) (type : SimpleType),
    Inside context.linkage v →
    context.linkage.declarations.types.length + 1 ≤ depth + v.simple.length →
    located.file ∈ context.linkage.catalog.files →
    located.declaration ∈ located.file.schema.types →
    located.declaration.definition = .simple type →
    (∀ m, context.linkage.Unfolds (.type, located.declaration.name) m →
      Leads context.linkage v m) →
    FailsOnly v context.linkage.Causes (expand located type)

/-- There is room for every simple type that the conversion is not inside of. -/
structure SimpleRoom (context : Context) (v : Visited) (depth : Nat) (expand : SimpleExpansion) :
    Prop where
  linked : context.linkage.IsLinked
  inside : Inside context.linkage v
  expands : ExpandsSimple context depth expand
  fits : context.linkage.declarations.types.length ≤ depth + v.simple.length

theorem failsOnly_namedBase {depth : Nat} {expand : SimpleExpansion}
    (room : SimpleRoom context v depth expand)
    {scope : File} {name : QName} {location : String} {refs : List Reference}
    {mentions : List Mention} (h : Ready context.linkage v scope refs mentions)
    (hr : ⟨.type, name, location⟩ ∈ refs) (hm : (.type, name) ∈ mentions) (typeName : String) :
    FailsOnly v context.linkage.Causes (namedBase context expand scope typeName name) := by
  unfold namedBase
  split
  · next hb => exact failsOnly_builtinShape h hr hb typeName
  · next hb =>
      have hb : name.isBuiltin = false ∨ Row.types.kind ≠ .type := .inl (Bool.eq_false_iff.2 hb)
      refine .found_bind (fun hn => h.not_found .types hr hb hn _) fun located hl => ?_
      have hl : context.linkage.lookup? .types scope name = some located := hl
      obtain ⟨hfile, hd, -⟩ := room.linked.found hl
      split
      · next type htype =>
          refine failsOnly_visiting .simple room.inside (room.linked.contains hb hl)
            (h.leads_found room.linked hm hl) fun _ hi hleads => ?_
          exact room.expands _ located type hi (fits_enter .simple room.fits) hfile hd htype hleads
      · refine .bind (isQuiet_silent.diagnose context scope _ _).failsOnly fun _ => ?_
        exact .found_bind (fun hn => absurd hn (by decide)) fun _ _ => .pure _

mutual

theorem failsOnly_shapeWith {depth : Nat} {expand : SimpleExpansion}
    (room : SimpleRoom context v depth expand)
    {scope : File} (typeName : String) (report : Bool) {location : String} : ∀ type : SimpleType,
      Ready context.linkage v scope (type.references location) type.unfolded →
      FailsOnly v context.linkage.Causes (shapeWith context expand scope typeName report type)
  | .restriction base facets, h => by
      unfold shapeWith
      refine .bind (failsOnly_baseShape room typeName report base h) fun inherited => ?_
      cases report with
      | true =>
          exact .bind (isQuiet_silent.recordIssues context scope typeName _).failsOnly
            fun _ => .pure _
      | false => exact .pure _
  | .list item, h => by
      unfold shapeWith
      exact (failsOnly_baseSchemaWith room typeName report item h).map
  | .union members, h => by
      unfold shapeWith
      exact (failsOnly_memberSchemas room typeName report members h).map

theorem failsOnly_baseShape {depth : Nat} {expand : SimpleExpansion}
    (room : SimpleRoom context v depth expand)
    {scope : File} (typeName : String) (report : Bool) {location : String} : ∀ base : SimpleBase,
      Ready context.linkage v scope (base.references location) base.unfolded →
      FailsOnly v context.linkage.Causes (baseShape context expand scope typeName report base)
  | .inline type, h => by
      unfold baseShape
      exact failsOnly_shapeWith room typeName report type h
  | .named name, h => by
      unfold baseShape
      exact failsOnly_namedBase room h (List.mem_singleton_self _)
        (List.mem_singleton_self _) typeName

theorem failsOnly_baseSchemaWith {depth : Nat} {expand : SimpleExpansion}
    (room : SimpleRoom context v depth expand)
    {scope : File} (typeName : String) (report : Bool) {location : String} : ∀ base : SimpleBase,
      Ready context.linkage v scope (base.references location) base.enclosed →
      FailsOnly v context.linkage.Causes (baseSchemaWith context expand scope typeName report base)
  | .named name, h => by
      unfold baseSchemaWith
      exact failsOnly_typeReference h (List.mem_singleton_self _) _
  | .inline type, h => by
      unfold baseSchemaWith
      exact (failsOnly_shapeWith room typeName report type h).map

theorem failsOnly_memberSchemas {depth : Nat} {expand : SimpleExpansion}
    (room : SimpleRoom context v depth expand)
    {scope : File} (typeName : String) (report : Bool) {location : String} :
    ∀ members : List SimpleBase,
      Ready context.linkage v scope (basesReferences location members) (enclosedIn members) →
      FailsOnly v context.linkage.Causes
        (memberSchemas context expand scope typeName report members)
  | [], _ => by
      unfold memberSchemas
      exact .pure _
  | m :: rest, h => by
      unfold memberSchemas
      exact .bind (failsOnly_baseSchemaWith room typeName report m h.left) fun _ =>
        (failsOnly_memberSchemas room typeName report rest h.right).map

end

theorem expandsSimple (hlinked : context.linkage.IsLinked) : ∀ depth : Nat,
    ExpandsSimple context depth (expandSimple context depth)
  | 0, v, _, _, hi, hroom, _, _, _, _ => by
      have hle := hi.length_le .simple .types rfl
      simp only [Expandable.of, Row.types] at hle
      omega
  | depth + 1, v, located, type, hi, hroom, hfile, hd, htype, hleads => by
      have h := Ready.of_type hfile hd hleads
      rw [htype] at h
      exact failsOnly_shapeWith ⟨hlinked, hi, expandsSimple hlinked depth, by omega⟩ _ _ type h

theorem failsOnly_simpleSchema (hlinked : context.linkage.IsLinked)
    (hi : Inside context.linkage v) {scope : File} (typeName : String) (report : Bool)
    {location : String} {type : SimpleType}
    (h : Ready context.linkage v scope (type.references location) type.unfolded) :
    FailsOnly v context.linkage.Causes (simpleSchema context scope typeName report type) :=
  (failsOnly_shapeWith ⟨hlinked, hi, expandsSimple hlinked (simpleDepth context),
    by rw [simpleDepth]; omega⟩ typeName report type h).map

/-! ### Attributes -/

theorem failsOnly_attributeSchema (hlinked : context.linkage.IsLinked)
    (hi : Inside context.linkage v) {scope : File} {location : String} {declaration : Attribute}
    (h : Ready context.linkage v scope (declaration.references location) declaration.unfolded)
    (default fixed : Option String) :
    FailsOnly v context.linkage.Causes
      (attributeSchema context scope declaration default fixed) := by
  unfold attributeSchema
  unfold Attribute.references Attribute.unfolded at h
  rcases htype : declaration.type with _ | name | type
  · exact .bind (.pure _) fun _ => .bind (.pure _) fun _ => .pure _
  · rw [htype] at h
    refine .bind (failsOnly_typeReference h (List.mem_singleton_self _) _) fun _ => ?_
    exact .bind (isQuiet_silent.namedSpace? context (silent_spaceOf? context) scope name).failsOnly
      fun _ => .pure _
  · rw [htype] at h
    refine .bind (failsOnly_simpleSchema hlinked hi _ true h) fun _ => ?_
    exact .bind (silent_spaceOf? context scope type).failsOnly fun _ => .pure _

/-- Attribute groups of which there is room for so many are expanded. -/
def ExpandsAttributes (context : Context) (depth : Nat) (expand : AttributeExpansion) : Prop :=
  ∀ (v : Visited) (site : Site) (located : Located AttributeGroup) (shape : Shape),
    Inside context.linkage v →
    context.linkage.declarations.attributeGroups.length + 1 ≤ depth + v.attributeGroups.length →
    located.file ∈ context.linkage.catalog.files → site.scope = located.file →
    located.declaration ∈ located.file.schema.attributeGroups →
    (∀ m, context.linkage.Unfolds (.attributeGroup, located.declaration.name) m →
      Leads context.linkage v m) →
    FailsOnly v context.linkage.Causes (expand site located shape)

/-- There is room for every attribute group that the conversion is not inside of. -/
structure AttributeRoom (context : Context) (v : Visited) (depth : Nat)
    (expand : AttributeExpansion) : Prop where
  linked : context.linkage.IsLinked
  inside : Inside context.linkage v
  expands : ExpandsAttributes context depth expand
  fits : context.linkage.declarations.attributeGroups.length ≤ depth + v.attributeGroups.length

theorem failsOnly_collectUse {depth : Nat} {expand : AttributeExpansion}
    (room : AttributeRoom context v depth expand)
    {site : Site} (shape : Shape) {location : String} : ∀ use : AttributeUse,
      Ready context.linkage v site.scope (use.references location) use.unfolded →
      FailsOnly v context.linkage.Causes (collectUse context expand site shape use)
  | .declared declaration use, h => by
      unfold collectUse
      dsimp only
      split
      · exact .pure _
      · next huse =>
          rw [AttributeUse.unfolded, if_neg huse] at h
          exact .bind (failsOnly_attributeSchema room.linked room.inside h none none) fun _ =>
            (isQuiet_silent.addAttribute context site _ _ shape).failsOnly
  | .reference reference use default fixed, h => by
      unfold collectUse
      have hb : reference.isBuiltin = false ∨ Row.attributes.kind ≠ .type := .inr (by decide)
      refine .found_bind (fun hn => h.not_found .attributes (List.mem_singleton_self _) hb hn _)
        fun located hl => ?_
      have hl : context.linkage.lookup? .attributes site.scope reference = some located := hl
      obtain ⟨hfile, hd, -⟩ := room.linked.found hl
      have ready := Ready.of_attribute hfile hd
        (h.leads_found room.linked (List.mem_singleton_self _) hl)
      refine .ite (.pure _) (.bind (failsOnly_attributeSchema room.linked room.inside ready default
        fixed) fun _ => ?_)
      exact (isQuiet_silent.addAttribute context site _ _ shape).failsOnly
  | .group reference, h => by
      unfold collectUse
      have hb : reference.isBuiltin = false ∨ Row.attributeGroups.kind ≠ .type := .inr (by decide)
      refine .found_bind (fun hn => h.not_found .attributeGroups (List.mem_singleton_self _) hb
        hn _) fun located hl => ?_
      have hl : context.linkage.lookup? .attributeGroups site.scope reference = some located := hl
      obtain ⟨hfile, hd, -⟩ := room.linked.found hl
      refine .map (failsOnly_visiting .attributeGroup room.inside (room.linked.contains hb hl)
        (h.leads_found room.linked (List.mem_singleton_self _) hl) fun _ hi hleads => ?_)
      exact room.expands _ _ located shape hi (fits_enter .attributeGroup room.fits) hfile rfl hd
        hleads

theorem failsOnly_collectUses {depth : Nat} {expand : AttributeExpansion}
    (room : AttributeRoom context v depth expand)
    {site : Site} {location : String} : ∀ (shape : Shape) (uses : List AttributeUse),
      Ready context.linkage v site.scope (usesReferences location uses) (usesUnfolded uses) →
      FailsOnly v context.linkage.Causes (collectUses context expand site shape uses)
  | _, [], _ => .pure _
  | shape, use :: rest, h =>
    .bind (failsOnly_collectUse room shape use h.left) fun shape =>
      failsOnly_collectUses room shape rest h.right

theorem expandsAttributes (hlinked : context.linkage.IsLinked) : ∀ depth : Nat,
    ExpandsAttributes context depth (expandAttributes context depth)
  | 0, v, _, _, _, hi, hroom, _, _, _, _ => by
      have hle := hi.length_le .attributeGroup .attributeGroups rfl
      simp only [Expandable.of, Row.attributeGroups] at hle
      omega
  | depth + 1, v, site, located, shape, hi, hroom, hfile, hscope, hd, hleads =>
    failsOnly_collectUses ⟨hlinked, hi, expandsAttributes hlinked depth, by omega⟩ shape _
      (hscope ▸ Ready.of_attributeGroup hfile hd hleads)

theorem failsOnly_collectAttributes (hlinked : context.linkage.IsLinked)
    (hi : Inside context.linkage v) {site : Site} {location : String} {uses : List AttributeUse}
    (h : Ready context.linkage v site.scope (usesReferences location uses) (usesUnfolded uses))
    (shape : Shape) :
    FailsOnly v context.linkage.Causes (collectAttributes context site uses shape) :=
  failsOnly_collectUses ⟨hlinked, hi, expandsAttributes hlinked (attributeDepth context),
    by rw [attributeDepth]; omega⟩ shape uses h

end Conversion

end Crosswalk
