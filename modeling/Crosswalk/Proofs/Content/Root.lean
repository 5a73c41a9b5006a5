import Crosswalk.Proofs.Counterpart.Root
import Crosswalk.Proofs.Cycles
import Crosswalk.Proofs.Failures

/-!
# Where chains of simple content end

The character data of a type with simple content is that of its base, which may have simple content
itself, and so on. Such a chain may cross any number of files, and its names may stand for types of
other namespaces. It ends at a simple type or at a datatype of XML Schema, unless it comes to a type
without simple content, to a name that stands for nothing, or back to a type that is on it already.
The walk to the end is long enough to tell: it finds the end of every chain that has one, and nothing
only for the others (`textRoot?_exact`).

It starts from the name of a type, though, and not from the type. A name of XML Schema itself is an
end for it, and so it does not look at the declaration of a type that a batch declares in that
namespace.
-/

namespace Crosswalk

/-- The base of the simple content of a type. -/
def NamedType.textBase? (t : NamedType) : Option QName :=
  match t.definition with
  | .complex type =>
    match type.content with
    | .simple base _ _ => some base
    | _ => none
  | .simple _ => none

/-- The type is complex, and its content is not simple. -/
def NamedType.LacksText (t : NamedType) : Prop :=
  (∃ type, t.definition = .complex type) ∧ t.textBase? = none

/-- A chain of simple content that comes to the type ends there: the type is simple, or the base of
its simple content is a datatype, named in its file. -/
def Located.EndsText (t : Located NamedType) (root : File × QName) : Prop :=
  (∃ type, t.declaration.definition = .simple type) ∧ root = (t.file, t.declaration.name) ∨
    ∃ base, t.declaration.textBase? = some base ∧ base.isBuiltin = true ∧ root = (t.file, base)

theorem NamedType.exists_complex {t : NamedType} {base : QName} (h : t.textBase? = some base) :
    ∃ type, t.definition = .complex type := by
  rw [textBase?] at h
  split at h
  · next type hd => exact ⟨type, hd⟩
  · exact nomatch h

theorem NamedType.base?_of_textBase? {t : NamedType} {base : QName}
    (h : t.textBase? = some base) : t.definition.base? = some base := by
  obtain ⟨name, definition, documentation⟩ := t
  rcases definition with type | ⟨content, attributes, any, mixed⟩
  · exact nomatch h
  · cases content <;> first | exact h | exact nomatch h

namespace Linkage

open Relation

variable {l : Linkage} {t u v : Located NamedType}

/-- The base of the simple content of a type stands for another type. -/
def DerivesText (l : Linkage) (t base : Located NamedType) : Prop :=
  ∃ name, t.declaration.textBase? = some name ∧ name.isBuiltin = false ∧
    l.type? t.file name = some base

/-- The base of the simple content of a type stands for nothing. -/
def MissesText (l : Linkage) (t : Located NamedType) : Prop :=
  ∃ name, t.declaration.textBase? = some name ∧ name.isBuiltin = false ∧ l.type? t.file name = none

/-- A chain of simple content that comes to a type ends there, goes on, breaks off or leads to no
character data. -/
theorem textStage (l : Linkage) (t : Located NamedType) : (∃ root, t.EndsText root) ∨
    (∃ base, l.DerivesText t base) ∨ l.MissesText t ∨ t.declaration.LacksText := by
  rcases hd : t.declaration.definition with type | type
  · exact .inl ⟨_, .inl ⟨⟨type, hd⟩, rfl⟩⟩
  · cases hbase : t.declaration.textBase? with
    | none => exact .inr (.inr (.inr ⟨⟨type, hd⟩, hbase⟩))
    | some name =>
        cases hb : name.isBuiltin with
        | true => exact .inl ⟨_, .inr ⟨name, hbase, hb, rfl⟩⟩
        | false =>
            cases hl : l.type? t.file name with
            | some base => exact .inr (.inl ⟨base, name, hbase, hb, hl⟩)
            | none => exact .inr (.inr (.inl ⟨name, hbase, hb, hl⟩))

theorem DerivesText.derives (h : l.DerivesText t u) : l.Derives t u := by
  obtain ⟨name, hname, -, hu⟩ := h
  exact ⟨name, NamedType.base?_of_textBase? hname, hu⟩

/-- A chain that ends at a type does not go on. -/
theorem DerivesText.not_endsText (h : l.DerivesText t u) (root : File × QName) :
    ¬ t.EndsText root := by
  obtain ⟨name, hname, hb, -⟩ := h
  rintro (⟨⟨type, hd⟩, -⟩ | ⟨other, hother, hbuiltin, -⟩)
  · rw [NamedType.textBase?, hd] at hname
    exact nomatch hname
  · obtain rfl := Option.some.inj (hname.symm.trans hother)
    exact Bool.false_ne_true (hb.symm.trans hbuiltin)

/-- What a cycle leads to is on a cycle. -/
theorem exists_derivesText_of_cycle (hc : TransGen l.DerivesText t t)
    (hu : ReflTransGen l.DerivesText t u) : ∃ v, l.DerivesText u v := by
  have hcycle : TransGen l.DerivesText u u := by
    induction hu with
    | refl => exact hc
    | tail _ hstep ih =>
        obtain ⟨w, hw, hback⟩ := TransGen.head'_iff.1 ih
        obtain rfl := hw.derives.eq hstep.derives
        exact .tail' hback hstep
  obtain ⟨v, hv, -⟩ := TransGen.head'_iff.1 hcycle
  exact ⟨v, hv⟩

/-- If a chain of simple content always goes on, it is a chain of base types. -/
theorem reflTransGen_derivesText
    (ht : ∀ u, ReflTransGen l.DerivesText t u → ∃ v, l.DerivesText u v)
    (hu : ReflTransGen l.Derives t u) : ReflTransGen l.DerivesText t u := by
  induction hu with
  | refl => exact .refl
  | tail _ hstep ih =>
      obtain ⟨v, hv⟩ := ht _ ih
      obtain rfl := hv.derives.eq hstep
      exact ih.tail hv

/-- A chain of simple content that always goes on comes back to a type on it. -/
theorem exists_textCycle (hi : l.IsIndexed .types) {name : QName}
    (hmem : (name, t) ∈ l.declarations.types)
    (ht : ∀ u, ReflTransGen l.DerivesText t u → ∃ v, l.DerivesText u v) :
    ∃ u, ReflTransGen l.DerivesText t u ∧ TransGen l.DerivesText u u := by
  have hendless : l.IsEndless t := fun u hu => by
    obtain ⟨v, hv⟩ := ht u (reflTransGen_derivesText ht hu)
    exact ⟨v, hv.derives⟩
  obtain ⟨loop, hloop⟩ := Option.isSome_iff_exists.1 ((typeLoop?_isSome_iff hi hmem).2 hendless)
  obtain ⟨-, -, c, hc, hcycle⟩ := typeLoop?_leads hi hmem hloop
  have hreach := reflTransGen_derivesText ht hc
  obtain ⟨d, hd, hback⟩ := TransGen.head'_iff.1 hcycle
  obtain ⟨v, hv⟩ := ht c hreach
  obtain rfl := hv.derives.eq hd
  exact ⟨c, hreach, .head' hv (reflTransGen_derivesText
    (fun u hu => ht u ((hreach.tail hv).trans hu)) hback)⟩

end Linkage

namespace Conversion

open Relation Linkage

variable {context : Context} {t u : Located NamedType} {root : File × QName}

/-- What the walk finds in so many steps from a type. -/
def rootFrom? (context : Context) (steps : Nat) (t : Located NamedType) : Option (File × QName) :=
  match t.declaration.definition with
  | .simple _ => some (t.file, t.declaration.name)
  | .complex _ => t.declaration.textBase?.bind (textRoot? context steps t.file)

theorem textRoot?_succ (steps : Nat) (scope : File) (name : QName) :
    textRoot? context (steps + 1) scope name =
      if name.isBuiltin then some (scope, name)
      else (context.linkage.type? scope name).bind (rootFrom? context steps) := by
  rw [textRoot?]
  split
  · rfl
  · cases context.linkage.type? scope name with
    | none => rfl
    | some t =>
        rw [Option.bind_some, rootFrom?]
        dsimp only
        cases hd : t.declaration.definition with
        | simple type => rfl
        | complex type =>
            rw [NamedType.textBase?, hd]
            dsimp only
            cases type.content <;> rfl

/-- The walk, with one step more than it takes. -/
theorem textRoot?_eq (scope : File) (name : QName) :
    textRoot? context (chainLength context) scope name =
      if name.isBuiltin then some (scope, name)
      else (context.linkage.type? scope name).bind (rootFrom? context (chainLength context)) := by
  rw [← textRoot?_chainLength (Nat.le_succ _), textRoot?_succ]

theorem rootFrom?_of_endsText (h : t.EndsText root) :
    rootFrom? context (chainLength context) t = some root := by
  rw [rootFrom?]
  rcases h with ⟨⟨type, hd⟩, rfl⟩ | ⟨name, hname, hb, rfl⟩
  · rw [hd]
  · obtain ⟨type, hd⟩ := NamedType.exists_complex hname
    rw [hd, hname]
    dsimp only
    rw [Option.bind_some, textRoot?_eq, if_pos hb]

theorem rootFrom?_of_derivesText (h : context.linkage.DerivesText t u) :
    rootFrom? context (chainLength context) t = rootFrom? context (chainLength context) u := by
  obtain ⟨name, hname, hb, hu⟩ := h
  obtain ⟨type, hd⟩ := NamedType.exists_complex hname
  rw [rootFrom?, hd, hname]
  dsimp only
  rw [Option.bind_some, textRoot?_eq, hb, if_neg Bool.false_ne_true, hu, Option.bind_some]

theorem rootFrom?_of_reflTransGen (h : ReflTransGen context.linkage.DerivesText t u) :
    rootFrom? context (chainLength context) t = rootFrom? context (chainLength context) u := by
  induction h with
  | refl => rfl
  | tail _ hstep ih => exact ih.trans (rootFrom?_of_derivesText hstep)

/-- What the walk finds is the end of a chain. -/
theorem exists_endsText (steps : Nat) {t : Located NamedType}
    (h : rootFrom? context steps t = some root) :
    ∃ u, ReflTransGen context.linkage.DerivesText t u ∧ u.EndsText root := by
  induction steps generalizing t with
  | zero =>
      rw [rootFrom?] at h
      split at h
      · next type hd => exact ⟨t, .refl, .inl ⟨⟨type, hd⟩, (Option.some.inj h).symm⟩⟩
      · obtain ⟨name, -, hnone⟩ := Option.bind_eq_some_iff.1 h
        exact nomatch hnone
  | succ steps ih =>
      rw [rootFrom?] at h
      split at h
      · next type hd => exact ⟨t, .refl, .inl ⟨⟨type, hd⟩, (Option.some.inj h).symm⟩⟩
      · obtain ⟨name, hname, hwalk⟩ := Option.bind_eq_some_iff.1 h
        rw [textRoot?_succ] at hwalk
        split at hwalk
        · next hb => exact ⟨t, .refl, .inr ⟨name, hname, hb, (Option.some.inj hwalk).symm⟩⟩
        · next hb =>
            obtain ⟨base, hbase, hrest⟩ := Option.bind_eq_some_iff.1 hwalk
            obtain ⟨u, hu, hends⟩ := ih hrest
            exact ⟨u, .head ⟨name, hname, Bool.eq_false_iff.2 hb, hbase⟩ hu, hends⟩

/-- The walk finds nothing from a type at which a chain breaks off, leads to no character data or
comes back. -/
theorem rootFrom?_eq_none (h : context.linkage.MissesText u ∨ u.declaration.LacksText ∨
    TransGen context.linkage.DerivesText u u) :
    rootFrom? context (chainLength context) u = none := by
  rcases h with ⟨name, hname, hb, hl⟩ | ⟨⟨type, hd⟩, hname⟩ | hcycle
  · obtain ⟨type, hd⟩ := NamedType.exists_complex hname
    rw [rootFrom?, hd, hname]
    dsimp only
    rw [Option.bind_some, textRoot?_eq, hb, if_neg Bool.false_ne_true, hl, Option.bind_none]
  · rw [rootFrom?, hd, hname]
    rfl
  · refine Option.eq_none_iff_forall_ne_some.2 fun root hroot => ?_
    obtain ⟨v, hv, hends⟩ := exists_endsText _ hroot
    obtain ⟨w, hw⟩ := exists_derivesText_of_cycle hcycle hv
    exact hw.not_endsText root hends

/-- The walk from a type finds the end of its chain, and nothing if the chain has none. -/
theorem rootFrom?_chainLength (hi : context.linkage.IsIndexed .types) {name : QName}
    (hmem : (name, t) ∈ context.linkage.declarations.types) :
    (∀ root, rootFrom? context (chainLength context) t = some root ↔
      ∃ u, ReflTransGen context.linkage.DerivesText t u ∧ u.EndsText root) ∧
    (rootFrom? context (chainLength context) t = none ↔
      ∃ u, ReflTransGen context.linkage.DerivesText t u ∧ (context.linkage.MissesText u ∨
        u.declaration.LacksText ∨ TransGen context.linkage.DerivesText u u)) := by
  refine ⟨fun root => ⟨exists_endsText _, ?_⟩, fun hnone => ?_, ?_⟩
  · rintro ⟨u, hu, hends⟩
    exact (rootFrom?_of_reflTransGen hu).trans (rootFrom?_of_endsText hends)
  · by_cases hgoes : ∀ u, ReflTransGen context.linkage.DerivesText t u →
        ∃ v, context.linkage.DerivesText u v
    · -- a chain that never stops comes back, since there are only so many types
      obtain ⟨u, hu, hcycle⟩ := exists_textCycle hi hmem hgoes
      exact ⟨u, hu, .inr (.inr hcycle)⟩
    · push Not at hgoes
      obtain ⟨u, hu, hstops⟩ := hgoes
      refine ⟨u, hu, ?_⟩
      rcases textStage context.linkage u with ⟨root, hends⟩ | ⟨v, hv⟩ | hmisses | hlacks
      · have hsome := (rootFrom?_of_reflTransGen hu).trans (rootFrom?_of_endsText hends)
        exact nomatch hnone.symm.trans hsome
      · exact absurd hv (hstops v)
      · exact .inl hmisses
      · exact .inr (.inl hlacks)
  · rintro ⟨u, hu, hstops⟩
    exact (rootFrom?_of_reflTransGen hu).trans (rootFrom?_eq_none hstops)

/-- The walk is long enough, for any batch, linked or not, and however names are resolved. From a
type outside the namespace of XML Schema it comes to the simple type or datatype at which the chain
of simple content ends, with the file that declares or names it; and it finds nothing if and only if
the chain comes to a name that stands for nothing, to a type without simple content, or back to a
type on it. A type that is declared in the namespace of XML Schema is an end itself, whatever it
is. -/
theorem textRoot?_exact (catalog : Catalog) (resolution : Resolution) (options : Options)
    (file : File) {name : QName} {t : Located NamedType}
    (hmem : (name, t) ∈ (ofCatalog catalog resolution).1.declarations.types) :
    let l := (ofCatalog catalog resolution).1
    let context : Context := ⟨l, options, file⟩
    let found := textRoot? context (chainLength context) t.file t.declaration.name
    (t.declaration.name.isBuiltin = false →
      (∀ root, found = some root ↔ ∃ u, ReflTransGen l.DerivesText t u ∧ u.EndsText root) ∧
      (found = none ↔ ∃ u, ReflTransGen l.DerivesText t u ∧
        (l.MissesText u ∨ u.declaration.LacksText ∨ TransGen l.DerivesText u u))) ∧
    (t.declaration.name.isBuiltin = true → found = some (t.file, t.declaration.name)) := by
  intro l context found
  have hi : l.IsIndexed .types := isIndexed_ofCatalog catalog resolution .types
  have hfind := hi.find?_of_mem hmem
  constructor
  · intro hb
    have hnamed : t.declaration.name = name := hi.named hfind
    have htype : l.type? t.file t.declaration.name = some t := by
      have hc : l.declarations.contains .type t.declaration.name = true := by
        rw [hnamed]
        exact Option.isSome_of_eq_some hfind
      rw [type?, resolve?_of_contains hb hc, Option.bind_some, hnamed]
      exact hfind
    have hfound : found = rootFrom? context (chainLength context) t := by
      change textRoot? context (chainLength context) t.file t.declaration.name = _
      rw [textRoot?_eq, hb, if_neg Bool.false_ne_true]
      exact congrArg (Option.bind · (rootFrom? context (chainLength context))) htype
    rw [hfound]
    exact rootFrom?_chainLength hi hmem
  · intro hb
    change textRoot? context (chainLength context) t.file t.declaration.name = _
    rw [textRoot?_eq, if_pos hb]

/-- A type of another file. Its name can be found by its local part only. -/
def passing : File := Batch.fileOf "b" ""
  [⟨⟨"", "c"⟩, .complex ⟨.simple (.xsd "token") .extension [], [], false, false⟩, none⟩]

/-- The chain crosses to the other file and ends at a datatype. -/
theorem textRoot?_exact_crossing :
    let context : Context := ⟨(ofCatalog ⟨[Batch.asking, passing]⟩ .lenient).1, {}, Batch.asking⟩
    let t : Located NamedType := ⟨Batch.asking,
      ⟨⟨"n", "t"⟩, .complex ⟨.simple ⟨"n", "c"⟩ .extension [], [], false, false⟩, none⟩⟩
    (⟨"n", "t"⟩, t) ∈ context.linkage.declarations.types ∧
      textRoot? context (chainLength context) t.file t.declaration.name =
        some (passing, .xsd "token") := by
  intro context t
  have hmem : (⟨"n", "t"⟩, t) ∈ context.linkage.declarations.types :=
    Table.mem_of_find? (by rfl)
  have hc : context.linkage.type? t.file ⟨"n", "c"⟩ = some ⟨passing,
    ⟨⟨"", "c"⟩, .complex ⟨.simple (.xsd "token") .extension [], [], false, false⟩, none⟩⟩ := by rfl
  refine ⟨hmem, (((textRoot?_exact _ _ _ _ hmem).1 (by decide)).1 _).2 ?_⟩
  exact ⟨_, .single ⟨_, rfl, by decide, hc⟩, .inr ⟨_, rfl, by decide, rfl⟩⟩

end Conversion

end Crosswalk
