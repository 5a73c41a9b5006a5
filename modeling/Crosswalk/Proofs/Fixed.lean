import Crosswalk.Proofs.Content.Rendering
import Crosswalk.Proofs.Conversion.Variety
import Crosswalk.Proofs.Inlining

/-!
# Fixed values

A fixed value is written as a constant beside the schema of the declared type, and nothing is noted
about it. So a declaration with a fixed value admits a value, other than its absence, if and only if
that schema accepts the constant. Which constants are accepted depends on what the type comes down
to: none by a list, by a union those that one of its members takes as a text, and otherwise those
that the facets in effect take as they are written.
-/

namespace Crosswalk

open Json Check Conversion

/-- The simple type that an element type may be. -/
def ElementType.base? : ElementType → Option SimpleBase
  | .named name => some (.named name)
  | .simple type => some (.inline type)
  | .complex _ => none
  | .any => none

/-- The name or the type is that of a simple type. -/
def Linkage.IsSimple (l : Linkage) (scope : File) : SimpleBase → Prop
  | .named name => ¬ l.IsBroad scope name
  | .inline _ => True

/-- A declaration of a single value. -/
inductive ValueDeclaration where
  | ofElement (declaration : Element)
  /-- With the literals that are given where the attribute is used. -/
  | ofAttribute (declaration : Attribute) (default fixed : Option String)

namespace ValueDeclaration

def name : ValueDeclaration → QName
  | ofElement declaration => declaration.name
  | ofAttribute declaration _ _ => declaration.name

/-- The type of the value, if it may be a simple one. -/
def base? : ValueDeclaration → Option SimpleBase
  | ofElement declaration => declaration.type.base?
  | ofAttribute declaration _ _ => some (declaration.type.getD (.named (.xsd "anySimpleType")))

def default? : ValueDeclaration → Option String
  | ofElement declaration => declaration.default
  | ofAttribute declaration default _ => default.or declaration.default

/-- The fixed value. -/
def fixed? : ValueDeclaration → Option String
  | ofElement declaration => declaration.fixed
  | ofAttribute declaration _ fixed => fixed.or declaration.fixed

def documentation : ValueDeclaration → Option String
  | ofElement declaration => declaration.documentation
  | ofAttribute declaration _ _ => declaration.documentation

/-- Whether the value may be absent. -/
def isNillable : ValueDeclaration → Bool
  | ofElement declaration => declaration.nillable
  | ofAttribute _ _ _ => false

/-- The declaration with another fixed value. -/
def withFixed (text : String) : ValueDeclaration → ValueDeclaration
  | ofElement declaration => ofElement { declaration with fixed := some text }
  | ofAttribute declaration default _ => ofAttribute declaration default (some text)

/-- What a missing type is reported for. -/
def referencing (site : Site) : ValueDeclaration → String
  | ofElement _ => site.location
  | ofAttribute declaration _ _ => simpleLocation declaration.name.name

/-- The conversion of the declaration. -/
def convert (context : Context) (expand : Expansions) (site : Site) :
    ValueDeclaration → Conversion Json
  | ofElement declaration => elementSchema context expand site declaration
  | ofAttribute declaration default fixed =>
    attributeSchema context site.scope declaration default fixed

end ValueDeclaration

namespace Conversion

/-- The schema of a simple type, as it is written where the type is used. -/
def typeSchema (context : Context) (scope : File) (referencing typeName : String) :
    SimpleBase → Conversion Json
  | .named name => typeReference context scope name referencing
  | .inline type => simpleSchema context scope typeName true type

/-- The space in which literals of a simple type are read. -/
def typeSpace? (context : Context) (scope : File) : SimpleBase → Conversion (Option ValueSpace)
  | .named name => namedSpace? context scope name
  | .inline type => spaceOf? context scope type

/-- The literal of a fixed value, among the keywords beside the type. -/
def fixedKeywords (documentation default : Option String) (space : ValueSpace) (text : String) :
    Table String Json :=
  descriptionOf documentation ++ [("const", space.literal text)] ++
    (default.toList.map fun text => ("default", space.literal text))

/-- The schema of a declaration with a fixed value, made from the schema of its type. -/
def fixedSchema (d : ValueDeclaration) (space : ValueSpace) (text : String) (own : Json) : Json :=
  let schema := withKeywords own (fixedKeywords d.documentation d.default? space text)
  if d.isNillable then orNull schema else schema

section

variable {context : Context} {expand : Expansions} {site : Site} {d : ValueDeclaration}
  {base : SimpleBase} {s s' t : ConversionState} {own schema : Json} {space : ValueSpace}

/-- A type that is left out is that of any simple value. -/
theorem typeSchema_anySimple (context : Context) {scope : File} {referencing typeName : String} : ∃ schema,
    Datatype.schemaOf? "anySimpleType" = some schema ∧
      typeSchema context scope referencing typeName (.named (.xsd "anySimpleType")) =
        pure schema ∧
      typeSpace? context scope (.named (.xsd "anySimpleType")) = pure (some .anySimple) := by
  have hbuiltin : (QName.xsd "anySimpleType").isBuiltin = true := by decide
  have hspace : (Datatype.find? "anySimpleType").map Datatype.space = some .anySimple := by decide
  obtain ⟨schema, hs⟩ := Option.isSome_iff_exists.1
    (show (Datatype.schemaOf? "anySimpleType").isSome = true by decide)
  refine ⟨schema, hs, ?_, ?_⟩
  · rw [typeSchema, typeReference, if_pos hbuiltin]
    exact congrArg (found scope referencing _) hs
  · rw [typeSpace?, namedSpace?, if_pos hbuiltin]
    exact congrArg pure hspace

theorem run_convert_ok (hbase : d.base? = some base)
    (h : run (d.convert context expand site) s = (.ok schema, s')) : ∃ own u,
      run (typeSchema context site.scope (d.referencing site) d.name.name base) s =
        (.ok own, u) := by
  cases d with
  | ofElement e =>
      obtain ⟨name, qualified, type, nillable, default, fixed, documentation⟩ := e
      unfold ValueDeclaration.convert elementSchema at h
      obtain ⟨own, u, hown, -⟩ := run_bind_ok h
      refine ⟨own, u, ?_⟩
      cases type <;> cases hbase <;> (unfold elementTypeSchema at hown; exact hown)
  | ofAttribute a default fixed =>
      obtain ⟨name, qualified, type, default', fixed', documentation⟩ := a
      cases hbase
      unfold ValueDeclaration.convert attributeSchema at h
      rcases type with _ | type
      · obtain ⟨schema, -, hschema, -⟩ := typeSchema_anySimple context
        exact ⟨schema, s, congrArg (fun c => run c s) hschema⟩
      · obtain ⟨own, u, hown, -⟩ := run_bind_ok h
        cases type <;> exact ⟨own, u, hown⟩

/-- A declaration with a fixed value is converted with any other one alike: nothing is noted about
literals. -/
theorem run_withFixed (hbase : d.base? = some base)
    (hown : run (typeSchema context site.scope (d.referencing site) d.name.name base) s =
      (.ok own, s'))
    (hspace : run (typeSpace? context site.scope base) s' = (.ok (some space), t))
    (text : String) : run ((d.withFixed text).convert context expand site) s =
      (.ok (fixedSchema d space text own), t) := by
  cases d with
  | ofElement e =>
      obtain ⟨name, qualified, type, nillable, default, fixed, documentation⟩ := e
      have hschema : run (elementTypeSchema context expand site name.name type) s =
          (.ok own, s') := by
        cases type <;> cases hbase <;> (unfold elementTypeSchema; exact hown)
      have hliteral : run (literalSpace? context site.scope type) s' = (.ok (some space), t) := by
        cases type <;> cases hbase <;> exact hspace
      have hkeywords : run (elementKeywords context site type default (some text) documentation)
          s' = (.ok (fixedKeywords documentation default space text), t) := by
        simp [elementKeywords, run_bind, hliteral, fixedKeywords]
      unfold ValueDeclaration.convert ValueDeclaration.withFixed elementSchema
      simp only [run_bind, hschema, hkeywords]
      rfl
  | ofAttribute a default fixed =>
      obtain ⟨name, qualified, type, default', fixed', documentation⟩ := a
      cases hbase
      unfold ValueDeclaration.convert ValueDeclaration.withFixed attributeSchema
      rcases type with _ | base | type
      · obtain ⟨any, hany, hschema, hread⟩ := typeSchema_anySimple context
        rw [Option.getD_none, hschema] at hown
        rw [Option.getD_none, hread] at hspace
        cases hown
        cases hspace
        simp only [run_bind, run_pure, hany, Option.getD_some]
        rfl
      · have hschema : run (baseSchema context site.scope name.name (.named base)) s =
          (.ok own, s') := hown
        have hread : run (namedSpace? context site.scope base) s' = (.ok (some space), t) := hspace
        simp only [run_bind, hschema, hread]
        rfl
      · have hschema : run (baseSchema context site.scope name.name (.inline type)) s =
          (.ok own, s') := hown
        have hread : run (spaceOf? context site.scope type) s' = (.ok (some space), t) := hspace
        simp only [run_bind, hschema, hread]
        rfl

theorem convert_withFixed {text : String} (h : d.fixed? = some text) :
    (d.withFixed text).convert context expand site = d.convert context expand site := by
  cases d with
  | ofElement e =>
      obtain ⟨name, qualified, type, nillable, default, fixed, documentation⟩ := e
      cases h
      rfl
  | ofAttribute a default fixed =>
      have h : fixed.or a.fixed = some text := h
      unfold ValueDeclaration.convert ValueDeclaration.withFixed attributeSchema
      simp only [h, Option.some_or]

end

theorem areBeside_fixedKeywords (documentation default : Option String) (space : ValueSpace)
    (text : String) : AreBeside (fixedKeywords documentation default space text) :=
  @areBeside_append documentation (some text) default space

variable {Home : Type} {follow : Follow Home} {home : Home}

/-- The constant is all that the keywords beside a type ask for. -/
theorem accepts_fixedKeywords_iff (hb : IsBlind follow) {schema : Json} (hs : IsTypeSchema schema)
    {documentation default : Option String} {space : ValueSpace} {text : String} {value : Json} :
    Accepts follow home value
        (withKeywords schema (fixedKeywords documentation default space text)) ↔
      Accepts follow home value schema ∧ (space.literal text).same value = true := by
  rw [hb.accepts_withKeywords_iff hs (areBeside_fixedKeywords documentation default space text)]
  refine and_congr_right fun _ => ?_
  have hconst : complaints "const" (space.literal text) value = [] ↔
      (space.literal text).same value = true := complaintUnless_eq_nil
  rw [← hconst]
  constructor
  · intro h
    exact h ("const", space.literal text) (by simp [fixedKeywords])
  · intro h e he
    simp only [fixedKeywords, List.mem_append, List.mem_singleton, List.mem_map,
      Option.mem_toList] at he
    rcases he with (he | rfl) | ⟨literal, -, rfl⟩
    · cases documentation with
      | none => exact absurd he List.not_mem_nil
      | some description =>
          obtain rfl := List.mem_singleton.1 he
          rfl
    · exact h
    · rfl

theorem accepts_orNull_iff (hb : IsBlind follow) {schema value : Json} :
    Accepts follow home value (orNull schema) ↔
      Accepts follow home value schema ∨ value = .null := by
  have hnull : Accepts follow home value (.object [("type", .string "null")]) ↔ value = .null := by
    rw [accepts_object_iff rfl, List.forall_mem_singleton,
      Complains.passes_iff (fun _ _ _ _ _ _ => rfl)]
    cases value <;> simp [complaints, typesOf, hasType, complaintUnless]
  rw [orNull, hb.accepts_anyOf_iff]
  simp [hnull]

theorem accepts_fixedSchema_iff (hb : IsBlind follow) {d : ValueDeclaration} {own : Json}
    (hs : IsTypeSchema own) {space : ValueSpace} {text : String} {value : Json} :
    Accepts follow home value (fixedSchema d space text own) ↔
      (d.isNillable = true ∧ value = .null) ∨
        Accepts follow home value own ∧ (space.literal text).same value = true := by
  unfold fixedSchema
  cases d.isNillable with
  | false => simp [accepts_fixedKeywords_iff hb hs]
  | true => simp [accepts_orNull_iff hb, accepts_fixedKeywords_iff hb hs, or_comm]

theorem accepts_described_iff (hb : IsBlind follow) {schema : Json} (hs : IsTypeSchema schema)
    {documentation : Option String} {value : Json} :
    Accepts follow home value (withKeywords schema (descriptionOf documentation)) ↔
      Accepts follow home value schema := by
  rw [hb.accepts_withKeywords_iff hs (areBeside_descriptionOf documentation), and_iff_left]
  cases documentation <;> simp [descriptionOf, complaints]

/-! ### Definitions of types -/

section

variable {context : Context} {t : NamedType} {entry : String × Json}
  (ho : outcome (typeDefinition context t) = .ok entry)
include ho

/-- The definition of a simple type is the schema of what it is flattened to. -/
theorem exists_simpleShape {type : SimpleType} (ht : t.definition = .simple type) :
    ∃ s shape s', run (simpleShape context context.file t.name.name true type) s =
        (.ok shape, s') ∧
      entry.2 = withKeywords shape.schema (descriptionOf t.documentation) := by
  have hrun : run (typeDefinition context t) {} = (.ok entry, _) := Prod.ext ho rfl
  unfold typeDefinition at hrun
  rw [ht] at hrun
  obtain ⟨schema, u, hschema, hentry⟩ := run_bind_ok hrun
  obtain ⟨w, hschema⟩ := run_visiting_ok hschema
  obtain ⟨shape, w', hshape, hpure⟩ := run_bind_ok hschema
  obtain rfl := run_pure_ok hpure
  exact ⟨_, shape, w', hshape, (congrArg Prod.snd (run_pure_ok hentry)).symm⟩

/-- The definition of a complex type is the schema of an object. -/
theorem exists_objectShape {type : ComplexType} (ht : t.definition = .complex type) :
    ∃ shape : Shape, shape.IsMade ∧
      entry.2 = withKeywords (objectSchema context shape) (descriptionOf t.documentation) := by
  have hrun : run (typeDefinition context t) {} = (.ok entry, _) := Prod.ext ho rfl
  unfold typeDefinition at hrun
  rw [ht] at hrun
  obtain ⟨schema, u, hschema, hentry⟩ := run_bind_ok hrun
  obtain ⟨w, hschema⟩ := run_visiting_ok hschema
  obtain ⟨shape, w', hshape, hpure⟩ := run_bind_ok hschema
  obtain rfl := run_pure_ok hpure
  exact ⟨shape, yields_isMade _ _ _ _ _ _ hshape, (congrArg Prod.snd (run_pure_ok hentry)).symm⟩

end

end Conversion

/-! ### Types in the documents of a batch -/

namespace Batch

variable {options : Options} {files : List (String × String)} {batch : Batch} {file : File}
  {follow : Follow Document}

/-- What the schema of a simple type in the document of a file accepts of literals: what the type
takes that it comes down to. -/
structure Reads (options : Options) (files : List (String × String)) (follow : Follow Document)
    (file scope : File) (base : SimpleBase) (schema : Json) (v : Variety) : Prop where
  variety : (linkageOf options files).HasVariety scope base v
  type : IsTypeSchema schema
  accepts : ∀ lexical value, (v.space.literal lexical).same value = true →
    (Accepts follow (documentOf options files file) value schema ↔
      v.Takes (linkageOf options files) lexical)

section

variable (h : Succeeds options files batch)
  (hj : ∀ document ∈ documentsOf options files,
    Judges (Document.followed? (documentsOf options files)) follow document)
  (hs : ∀ file ∈ (catalogOf options files).files, Separate (contextOf options files file))
include h hj hs

/-- A link to a type accepts what the definition of the type does. -/
theorem accepts_typeLink {source target : File} (hsource : source ∈ (catalogOf options files).files)
    (htarget : target ∈ (catalogOf options files).files) {t : NamedType}
    (ht : t ∈ target.schema.types) : ∃ schema,
      outcome (typeDefinition (contextOf options files target) t) = .ok (t.name.name, schema) ∧
      AcceptsSame follow (documentOf options files source) (documentOf options files target)
        (linkTo (contextOf options files source) target "definitions" t.name.name) schema := by
  obtain ⟨schema, ho, hm⟩ := (h.isMember htarget (hs target htarget)).1 t ht
  exact ⟨schema, ho, (hj _ (List.mem_map.2 ⟨source, hsource, rfl⟩)).leads
    (followed?_linkText hsource htarget hm)⟩

/-- A link to a simple type accepts what the shape does that it is flattened to where it is
declared. -/
theorem exists_linkedShape {located : Located NamedType} {scope : File} {name : QName}
    (hl : (linkageOf options files).type? scope name = some located)
    (hf : file ∈ (catalogOf options files).files) {type : SimpleType}
    (ht : located.declaration.definition = .simple type) : ∃ s shape s',
      run (simpleShape (contextOf options files located.file) located.file
        located.declaration.name.name true type) s = (.ok shape, s') ∧
      AcceptsSame follow (documentOf options files file) (documentOf options files located.file)
        (linkTo (contextOf options files file) located.file "definitions"
          located.declaration.name.name) shape.schema := by
  obtain ⟨htarget, hd⟩ := Linkage.located_of_type? hl
  obtain ⟨schema, ho, hlink⟩ := accepts_typeLink h hj hs hf htarget hd
  obtain ⟨s, shape, s', hshape, rfl⟩ := exists_simpleShape ho ht
  have hb := (hj _ (List.mem_map.2 ⟨file, hf, rfl⟩)).blind
  exact ⟨s, shape, s', hshape, fun value =>
    (hlink value).trans (accepts_described_iff hb (isTypeSchema_schema shape))⟩

/-- Links to named types accept the texts that the types take. The induction is on offers: the
definition of a union links to what it offers. -/
theorem linkTakes (wf : WellFounded fun b a => (linkageOf options files).Offering a b) (q : QName) :
    ∀ {file}, file ∈ (catalogOf options files).files →
    ∀ {scope : File} {name : QName} {located : Located NamedType},
      (linkageOf options files).type? scope name = some located →
      located.declaration.name = q → LinkTakes (contextOf options files file) follow
        (documentOf options files file) located := by
  induction q using wf.induction with
  | h q ih =>
      rintro file hf scope name located hl rfl text
      have hb := (hj _ (List.mem_map.2 ⟨file, hf, rfl⟩)).blind
      obtain ⟨htarget, hd⟩ := Linkage.located_of_type? hl
      cases hdef : located.declaration.definition with
      | complex type =>
          obtain ⟨schema, ho, hlink⟩ := accepts_typeLink h hj hs hf htarget hd
          obtain ⟨shape, hmade, rfl⟩ := exists_objectShape ho hdef
          rw [hlink, objectSchema, accepts_described_iff hb (hmade.isTypeSchema _ _),
            hmade.accepts_schema_iff hb]
          simp
      | simple type =>
          obtain ⟨s, shape, s', hshape, hlink⟩ := exists_linkedShape h hj hs hl hf hdef
          have hoffers : OffersTake (contextOf options files located.file) follow
              (documentOf options files located.file) located.file type := by
            intro inner hoffer
            obtain ⟨scope', name', hl'⟩ := hoffer.found
            exact ih inner.declaration.name ⟨located.file, htarget, located.declaration, hd, rfl,
              type, hdef, inner, hoffer, rfl⟩ htarget hl' rfl
          obtain ⟨v, hv, hshaped⟩ := yields_simpleShape hb _ true hoffers s s' shape hshape
          rw [hlink, hshaped.accepts_string_iff hb, ← hv.takesText_iff]
          simp [contextOf]

theorem offersTake (wf : WellFounded fun b a => (linkageOf options files).Offering a b)
    (hf : file ∈ (catalogOf options files).files) {scope : File} {type : SimpleType} :
    OffersTake (contextOf options files file) follow (documentOf options files file) scope
      type := by
  intro located hoffer
  obtain ⟨scope', name, hl⟩ := hoffer.found
  exact linkTakes h hj hs wf _ hf hl rfl

omit hs in
/-- The space of a type that was flattened is found in every document, from outside of all
types. -/
theorem run_spaceOf? {f g : File} (hf : f ∈ (catalogOf options files).files)
    (hg : g ∈ (catalogOf options files).files) {scope : File} {typeName : String} {report : Bool}
    {type : SimpleType} {s s' : ConversionState} {shape : SimpleShape}
    (hshape : run (simpleShape (contextOf options files f) scope typeName report type) s =
      (.ok shape, s')) {t : ConversionState} (ht : t.visited.simple = []) :
    ∃ t', run (spaceOf? (contextOf options files g) scope type) t =
      (.ok (some shape.space), t') := by
  have hfewer : FewerSimple s.visited t.visited := by
    rw [FewerSimple, ht]
    exact List.nil_subset _
  have agree : Agree FewerSimple (fun _ _ => True)
      (simpleShape (contextOf options files f) scope typeName report type)
      (simpleShape (contextOf options files g) scope "" false type) _ :=
    agree_simpleShape (linkageOf options files).groupUses (linkageOf options files).groupUses
      enters_fewer (readsAlike h hj hf hg) scope typeName "" report false type
  obtain ⟨shape', t', hshape', -, -, hsame⟩ := agree s t shape s' hfewer hshape (.inl trivial)
  refine ⟨t', ?_⟩
  unfold spaceOf?
  rw [run_tryCatch, run_bind, hshape', hsame.space]
  rfl

omit h hs in
theorem exists_reads_builtin (hf : file ∈ (catalogOf options files).files) {scope : File}
    {name : QName} (hbuiltin : name.isBuiltin = true)
    (hsimple : ¬ (linkageOf options files).IsBroad scope name) {schema : Json}
    (hschema : Datatype.schemaOf? name.name = some schema) : ∃ d,
      Datatype.find? name.name = some d ∧
        Reads options files follow file scope (.named name) schema (.atomic d []) := by
  have hb := (hj _ (List.mem_map.2 ⟨file, hf, rfl⟩)).blind
  have hany : name.name ≠ "anyType" := fun hn => hsimple ((if_pos hbuiltin).mpr hn)
  obtain ⟨d, hd, rfl⟩ : ∃ d, Datatype.find? name.name = some d ∧
      Json.object d.fullKeywords = schema := by
    unfold Datatype.schemaOf? at hschema
    rw [if_neg hany] at hschema
    exact Option.map_eq_some_iff.1 hschema
  have hshaped : Shaped follow (documentOf options files file) (linkageOf options files)
      (.atomic d []) (.atomic d (.ofDatatype d)) := .atomic d []
  refine ⟨d, hd, .builtin hbuiltin hd, isTypeSchema_schemaOf? hschema, ?_⟩
  intro lexical value hsame
  rw [← FacetSet.keywords_ofDatatype (List.mem_of_find?_eq_some hd)]
  exact hshaped.accepts_iff hb hsame

theorem exists_reads_declared (wf : WellFounded fun b a => (linkageOf options files).Offering a b)
    (hf : file ∈ (catalogOf options files).files) {scope : File} {name : QName}
    (hbuiltin : name.isBuiltin = false) {located : Located NamedType}
    (hl : (linkageOf options files).type? scope name = some located) {type : SimpleType}
    (ht : located.declaration.definition = .simple type) {t : ConversionState}
    (hv : t.visited.simple = []) : ∃ v t',
      Reads options files follow file scope (.named name) (linkTo (contextOf options files file)
        located.file "definitions" located.declaration.name.name) v ∧
      run (spaceOf? (contextOf options files file) located.file type) t =
        (.ok (some v.space), t') := by
  have hb := (hj _ (List.mem_map.2 ⟨file, hf, rfl⟩)).blind
  have htarget := (Linkage.located_of_type? hl).1
  obtain ⟨s, shape, s', hshape, hlink⟩ := exists_linkedShape h hj hs hl hf ht
  obtain ⟨v, hvar, hshaped⟩ :=
    yields_simpleShape hb _ _ (offersTake h hj hs wf htarget) _ _ _ hshape
  obtain ⟨t', hspace⟩ := run_spaceOf? h hj htarget hf hshape hv
  exact ⟨v, t', ⟨.named hbuiltin hl ht hvar, .link _, fun lexical value hsame =>
    (hlink value).trans (hshaped.accepts_iff hb hsame)⟩, hshaped.space ▸ hspace⟩

theorem exists_reads_named (wf : WellFounded fun b a => (linkageOf options files).Offering a b)
    (hf : file ∈ (catalogOf options files).files) {scope : File} {name : QName}
    (hsimple : ¬ (linkageOf options files).IsBroad scope name) {s s' : ConversionState}
    (hv : s.visited.simple = []) {referencing : String} {own : Json}
    (hrun : run (typeReference (contextOf options files file) scope name referencing) s =
      (.ok own, s')) : ∃ v t, Reads options files follow file scope (.named name) own v ∧
        run (namedSpace? (contextOf options files file) scope name) s' =
          (.ok (some v.space), t) := by
  unfold typeReference at hrun
  unfold namedSpace?
  split at hrun
  · next hbuiltin =>
      rw [if_pos hbuiltin]
      obtain ⟨d, hd, hreads⟩ := exists_reads_builtin hj hf hbuiltin hsimple (run_found_ok hrun)
      exact ⟨_, s', hreads, by rw [hd]; rfl⟩
  · next hbuiltin =>
      rw [if_neg hbuiltin]
      have hbuiltin := Bool.eq_false_iff.2 hbuiltin
      rcases hl : (contextOf options files file).linkage.type? scope name with _ | located
      · rw [hl] at hrun
        cases hrun
      · rw [hl] at hrun
        cases hrun
        rcases ht : located.declaration.definition with type | type
        · simp only [ht]
          exact exists_reads_declared h hj hs wf hf hbuiltin hl ht hv
        · refine absurd ?_ hsimple
          rw [Linkage.IsBroad, hbuiltin, if_neg Bool.false_ne_true]
          exact ⟨located, type, hl, ht⟩

theorem exists_reads_inline (wf : WellFounded fun b a => (linkageOf options files).Offering a b)
    (hf : file ∈ (catalogOf options files).files) {scope : File} {type : SimpleType}
    {s s' : ConversionState} (hv : s.visited.simple = []) {typeName : String} {own : Json}
    (hrun : run (simpleSchema (contextOf options files file) scope typeName true type) s =
      (.ok own, s')) : ∃ v t, Reads options files follow file scope (.inline type) own v ∧
        run (spaceOf? (contextOf options files file) scope type) s' = (.ok (some v.space), t) := by
  have hb := (hj _ (List.mem_map.2 ⟨file, hf, rfl⟩)).blind
  obtain ⟨shape, u, hshape, hpure⟩ := run_bind_ok hrun
  cases hpure
  obtain ⟨v, hvar, hshaped⟩ :=
    yields_simpleShape hb _ _ (offersTake h hj hs wf hf) _ _ _ hshape
  have hsteady := (isClosed_steady.simpleShape (contextOf options files file) scope typeName
    true type s s rfl).2
  rw [hshape] at hsteady
  obtain ⟨t, hspace⟩ := run_spaceOf? h hj hf hf hshape
    ((congrArg Visited.simple hsteady).trans hv)
  exact ⟨v, t, ⟨hvar, isTypeSchema_schema shape, fun lexical value => hshaped.accepts_iff hb⟩,
    hshaped.space ▸ hspace⟩

/-- The schema that is written for a simple type takes literals in the space that they are read
in. -/
theorem exists_reads (wf : WellFounded fun b a => (linkageOf options files).Offering a b)
    (hf : file ∈ (catalogOf options files).files) {scope : File} {base : SimpleBase}
    (hsimple : (linkageOf options files).IsSimple scope base) {s s' : ConversionState}
    (hv : s.visited.simple = []) {referencing typeName : String} {own : Json}
    (hrun : run (typeSchema (contextOf options files file) scope referencing typeName base) s =
      (.ok own, s')) : ∃ v t, Reads options files follow file scope base own v ∧
        run (typeSpace? (contextOf options files file) scope base) s' =
          (.ok (some v.space), t) := by
  cases base with
  | named name => exact exists_reads_named h hj hs wf hf hsimple hv hrun
  | inline type => exact exists_reads_inline h hj hs wf hf hv hrun

end

/-- A declaration of a simple type with a fixed value accepts nothing but the constant that the
literal is written as, and that if and only if what the type comes down to takes the literal: as a
text, a truth value or a number that the facets admit, as a text that a member of a union takes, and
never as a list. Apart from the absence of a value, it accepts something if and only if that is so.
With every other literal the declaration is converted with the same notes: none is on a literal. -/
theorem fixed_accepted_iff (h : ofFiles options files = .ok batch)
    (hoffers : ∀ q, ¬ Relation.TransGen (linkageOf options files).Offering q q)
    (hs : ∀ file ∈ (catalogOf options files).files, Separate (contextOf options files file))
    (hf : file ∈ (catalogOf options files).files) {expand : Expansions} {site : Site}
    {d : ValueDeclaration} {base : SimpleBase} (hbase : d.base? = some base)
    (hsimple : (linkageOf options files).IsSimple site.scope base) {lexical : String}
    (hfixed : d.fixed? = some lexical) {s s' : ConversionState} (hv : s.visited.simple = [])
    {schema : Json}
    (hrun : run (d.convert (contextOf options files file) expand site) s = (.ok schema, s')) :
    (∃ v, (linkageOf options files).HasVariety site.scope base v ∧
      (∀ value, Accepts (Document.ultimately batch.documents) (documentOf options files file) value
          schema ↔ (d.isNillable = true ∧ value = .null) ∨
            v.Takes (linkageOf options files) lexical ∧
              (v.space.literal lexical).same value = true) ∧
      ((∃ value, Accepts (Document.ultimately batch.documents) (documentOf options files file) value
          schema) ↔ d.isNillable = true ∨ v.Takes (linkageOf options files) lexical)) ∧
    ∀ text, ∃ other,
      run ((d.withFixed text).convert (contextOf options files file) expand site) s =
        (.ok other, s') := by
  have hj := judges_ultimately h hoffers
  have succeeds := succeeds_of_ofFiles h
  have wf := Linkage.wellFounded_offering (Linkage.isLinked_ofCatalog _ _) hoffers
  have hdocuments := succeeds.documents
  rw [hdocuments] at hj
  obtain ⟨own, u, hown⟩ := run_convert_ok hbase hrun
  obtain ⟨v, t, hreads, hspace⟩ := exists_reads succeeds hj hs wf hf hsimple hv hown
  have converted : ∀ text,
      run ((d.withFixed text).convert (contextOf options files file) expand site) s =
        (.ok (fixedSchema d v.space text own), t) := run_withFixed hbase hown hspace
  obtain ⟨hschema, rfl⟩ : fixedSchema d v.space lexical own = schema ∧ t = s' := by
    have hsame := converted lexical
    rw [convert_withFixed hfixed, hrun] at hsame
    cases hsame
    exact ⟨rfl, rfl⟩
  have hb := (hj _ (List.mem_map.2 ⟨file, hf, rfl⟩)).blind
  have haccepts : ∀ value, Accepts (Document.ultimately (documentsOf options files))
      (documentOf options files file) value schema ↔
        (d.isNillable = true ∧ value = .null) ∨ v.Takes (linkageOf options files) lexical ∧
          (v.space.literal lexical).same value = true := by
    intro value
    rw [← hschema, accepts_fixedSchema_iff hb hreads.type]
    exact or_congr_right (and_congr_left (hreads.accepts lexical value))
  rw [hdocuments]
  refine ⟨⟨v, hreads.variety, haccepts, ?_⟩, fun text => ⟨_, converted text⟩⟩
  constructor
  · rintro ⟨value, hvalue⟩
    exact ((haccepts value).1 hvalue).imp And.left And.left
  · rintro (hnil | htakes)
    · exact ⟨.null, (haccepts _).2 (.inl ⟨hnil, rfl⟩)⟩
    · exact ⟨_, (haccepts _).2 (.inr ⟨htakes, v.space.same_literal lexical⟩)⟩

/-- Without types, none offers itself. -/
theorem not_offering_of_types (h : ∀ file ∈ (catalogOf options files).files, file.schema.types = [])
    (q : QName) : ¬ Relation.TransGen (linkageOf options files).Offering q q := by
  intro hloop
  obtain ⟨_, ⟨file, hf, t, ht, -⟩, -⟩ := Relation.TransGen.head'_iff.1 hloop
  rw [h file hf] at ht
  exact absurd ht List.not_mem_nil

theorem separate_of_types (h : file.schema.types = []) :
    Separate (contextOf options files file) := by
  intro t ht
  have ht : t ∈ file.schema.types := ht
  rw [h] at ht
  exact absurd ht List.not_mem_nil

/-- A file with fixed values for a list, for a number and for a text. -/
def listed : List (String × String) := [
  ("a.xsd", "<s:schema xmlns:s='http://www.w3.org/2001/XMLSchema'><s:element name='e' " ++
    "fixed='1 2'><s:simpleType><s:list itemType='s:string'/></s:simpleType></s:element>" ++
    "<s:element name='d' type='s:double' fixed='INF'/>" ++
    "<s:element name='f' type='s:string' fixed='1 2'/></s:schema>")]

/-- The parts of the file. -/
def listedParts : List Xml.Event :=
  Xml.schemaParts (Xml.elementParts "element" [("name", "e"), ("fixed", "1 2")]
      (Xml.elementParts "simpleType" [] (Xml.elementParts "list" [("itemType", "s:string")] [])) ++
    Xml.elementParts "element" [("name", "d"), ("type", "s:double"), ("fixed", "INF")] [] ++
    Xml.elementParts "element" [("name", "f"), ("type", "s:string"), ("fixed", "1 2")] [])

set_option maxRecDepth 2000 in
theorem collect_listed : collect {} listed = collectParts {} (fun _ => listedParts) listed :=
  collect_of_characters (Xml.toList_append_of (Xml.toList_append_of (Xml.toList_append_of
    String.toList_ofList String.toList_ofList) String.toList_ofList) String.toList_ofList) (by cbv)

/-- The elements of the file. -/
def listedElements : List Element := [
  ⟨⟨"", "e"⟩, false, .simple (.list (.named (.xsd "string"))), false, none, some "1 2", none⟩,
  ⟨⟨"", "d"⟩, false, .named (.xsd "double"), false, none, some "INF", none⟩,
  ⟨⟨"", "f"⟩, false, .named (.xsd "string"), false, none, some "1 2", none⟩]

theorem declarations_listed : (catalogOf {} listed).files.map
    (fun file => (file.schema.types, file.schema.elements)) = [([], listedElements)] := by
  rw [catalogOf, collect_listed]
  rfl

theorem types_listed (file : File) (hf : file ∈ (catalogOf {} listed).files) :
    file.schema.types = [] := by
  have hm : (file.schema.types, file.schema.elements) ∈ (catalogOf {} listed).files.map
      fun file => (file.schema.types, file.schema.elements) := List.mem_map.2 ⟨file, hf, rfl⟩
  rw [declarations_listed, List.mem_singleton] at hm
  exact (Prod.mk.inj hm).1

theorem isOk_listed : (ofFiles {} listed).isOk = true := by
  refine isOk_of_problemsOf ?_
  rw [problemsOf, linkageOf, catalogOf, collect_listed]
  decide +kernel

/-- A global element of a batch that succeeds is converted. -/
theorem exists_converted (h : Succeeds options files batch)
    (hf : file ∈ (catalogOf options files).files) {e : Element} (he : e ∈ file.schema.elements) :
    ∃ schema s', run ((ValueDeclaration.ofElement e).convert (contextOf options files file)
      (allExpansions (contextOf options files file)) ⟨file, "element " ++ e.name.name⟩) {} =
        (.ok schema, s') := by
  obtain ⟨types, groups, hc⟩ := isConverted h.converts hf
  obtain ⟨entry, -, ho⟩ := exists_entry hc.elements he
  obtain ⟨schema, s', hschema, -⟩ := run_bind_ok (Prod.ext ho rfl)
  exact ⟨schema, s', hschema⟩

/-- Only one of the types that are built in is not simple. -/
theorem not_isBroad_xsd {l : Linkage} {name : String} (hn : name ≠ "anyType") :
    ¬ l.IsBroad file (.xsd name) := by
  rw [Linkage.IsBroad, if_pos (by rfl)]
  exact hn

/-- A text without facets is any text. -/
theorem takes_string {l : Linkage} {d : Datatype} (hd : Datatype.find? "string" = some d)
    (text : String) : (Variety.atomic d []).Takes l text := by
  have hstring : Datatype.find? "string" =
      some ⟨"string", .text, none, none, none, none, none⟩ := by decide
  obtain rfl := Option.some.inj (hd.symm.trans hstring)
  have hfree : FacetSet.Admits Regex.Finds {} .text (.text text.length text) := by
    simp [FacetSet.Admits, FacetSet.Lists]
  exact ⟨rfl, by simp, hfree⟩

/-- There is no JSON number for the literal. -/
theorem not_takes_double {l : Linkage} {d : Datatype} (hd : Datatype.find? "double" = some d) :
    ¬ (Variety.atomic d []).Takes l "INF" := by
  have hdouble : Datatype.find? "double" =
      some ⟨"double", .decimal, none, none, none, none, none⟩ := by decide
  have hnone : Number.ofLexical? "INF" = none := by decide
  obtain rfl := Option.some.inj (hd.symm.trans hdouble)
  rintro ⟨k, hk, -⟩
  exact absurd (hnone.symm.trans hk) (by simp)

theorem fixed_accepted_iff_listed : ∃ batch, ofFiles {} listed = .ok batch ∧
    ∃ file ∈ (catalogOf {} listed).files, file.schema.elements = listedElements ∧
      ∀ e ∈ listedElements, ∃ schema s',
        run ((ValueDeclaration.ofElement e).convert (contextOf {} listed file)
          (allExpansions (contextOf {} listed file)) ⟨file, "element " ++ e.name.name⟩) {} =
            (.ok schema, s') ∧
        ((∃ value, Accepts (Document.ultimately batch.documents) (documentOf {} listed file) value
          schema) ↔ e.name.name = "f") := by
  obtain ⟨batch, h⟩ := ok_of_isOk isOk_listed
  have hdeclared : ([], listedElements) ∈ (catalogOf {} listed).files.map
      fun file => (file.schema.types, file.schema.elements) := by
    rw [declarations_listed]
    exact List.mem_singleton_self _
  obtain ⟨file, hf, hfile⟩ := List.mem_map.1 hdeclared
  obtain ⟨-, helements⟩ := Prod.mk.inj hfile
  refine ⟨batch, h, file, hf, helements, fun e he => ?_⟩
  obtain ⟨schema, s', hrun⟩ :=
    exists_converted (succeeds_of_ofFiles h) hf (by rw [helements]; exact he)
  refine ⟨schema, s', hrun, ?_⟩
  have accepted := fun {base : SimpleBase} {lexical : String} hbase hsimple hfixed =>
    @fixed_accepted_iff _ _ _ _ h (not_offering_of_types types_listed)
      (fun other ho => separate_of_types (types_listed other ho)) hf _ _ (.ofElement e) base hbase
      hsimple lexical hfixed _ _ rfl _ hrun
  simp only [listedElements, List.mem_cons, List.not_mem_nil, or_false] at he
  rcases he with rfl | rfl | rfl
  · obtain ⟨⟨v, hv, -, hsome⟩, -⟩ := accepted rfl trivial rfl
    cases hv
    rw [hsome]
    simp [ValueDeclaration.isNillable, Variety.Takes]
  · obtain ⟨⟨v, hv, -, hsome⟩, -⟩ := accepted rfl (not_isBroad_xsd (by decide)) rfl
    cases hv with
    | builtin hb hd =>
        rw [hsome]
        simp [ValueDeclaration.isNillable, not_takes_double hd]
    | named hb => exact absurd hb (by decide)
  · obtain ⟨⟨v, hv, -, hsome⟩, -⟩ := accepted rfl (not_isBroad_xsd (by decide)) rfl
    cases hv with
    | builtin hb hd =>
        rw [hsome]
        simp [takes_string hd]
    | named hb => exact absurd hb (by decide)

end Batch

end Crosswalk
