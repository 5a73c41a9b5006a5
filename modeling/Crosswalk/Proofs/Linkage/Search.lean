import Crosswalk.Proofs.Linkage.Resolution
import Mathlib.Logic.Relation
import Mathlib.Data.List.Lattice

/-!
# Searches for loops

Following the base of a type, and following the names of groups that a group refers to, without a
bound on the steps. Both searches end, since what they have passed through is declared and nothing
is passed through twice; and the searches with as many steps as there are declarations find what
these find. A search of base types comes back to a type it has passed if and only if there always is
a further base, and a search of groups if and only if it leads to a group that contains itself.
-/

namespace Crosswalk

/-- A model group refers to a group by name, itself or in a model group that it holds. -/
inductive ModelGroup.RefersTo (name : QName) : ModelGroup → Prop
  | itself {g : ModelGroup} {p : Particle} (hp : p ∈ g.particles) (ht : p.term = .groupRef name) :
    RefersTo name g
  | nested {g inner : ModelGroup} {p : Particle} (hp : p ∈ g.particles)
    (ht : p.term = .group inner) (h : RefersTo name inner) : RefersTo name g

mutual

theorem ModelGroup.refersTo_of_mem {name : QName} :
    ∀ g : ModelGroup, name ∈ g.groupRefs → g.RefersTo name
  | ⟨_, particles⟩, h => by
      obtain ⟨p, hp, ht | ⟨inner, ht, hinner⟩⟩ := exists_of_mem_groupRefsOf particles h
      · exact .itself hp ht
      · exact .nested hp ht hinner

theorem exists_of_mem_groupRefsOf {name : QName} : ∀ particles : List Particle,
    name ∈ groupRefsOf particles → ∃ p ∈ particles, p.term = .groupRef name ∨
      ∃ inner, p.term = .group inner ∧ inner.RefersTo name
  | [], h => absurd h List.not_mem_nil
  | p :: rest, h => by
      rw [groupRefsOf, List.mem_append] at h
      rcases h with h | h
      · exact ⟨p, List.mem_cons_self, Particle.refersTo_of_mem p h⟩
      · obtain ⟨q, hq, hname⟩ := exists_of_mem_groupRefsOf rest h
        exact ⟨q, List.mem_cons_of_mem _ hq, hname⟩

theorem Particle.refersTo_of_mem {name : QName} : ∀ p : Particle, name ∈ p.groupRefs →
    p.term = .groupRef name ∨ ∃ inner, p.term = .group inner ∧ inner.RefersTo name
  | ⟨_, _, .element _⟩, h => absurd h List.not_mem_nil
  | ⟨_, _, .elementRef _⟩, h => absurd h List.not_mem_nil
  | ⟨_, _, .group g⟩, h => .inr ⟨g, rfl, ModelGroup.refersTo_of_mem g h⟩
  | ⟨_, _, .groupRef other⟩, h => .inl (by rw [List.mem_singleton.1 h])
  | ⟨_, _, .any⟩, h => absurd h List.not_mem_nil

end

theorem mem_groupRefsOf {name : QName} {p : Particle} {particles : List Particle}
    (hp : p ∈ particles) (h : name ∈ p.groupRefs) : name ∈ groupRefsOf particles := by
  induction particles with
  | nil => exact absurd hp List.not_mem_nil
  | cons q rest ih =>
      rw [groupRefsOf, List.mem_append]
      rcases List.mem_cons.1 hp with rfl | hp
      · exact .inl h
      · exact .inr (ih hp)

/-- The groups that a model group lists are those that it refers to. -/
theorem ModelGroup.mem_groupRefs_iff {name : QName} {g : ModelGroup} :
    name ∈ g.groupRefs ↔ g.RefersTo name := by
  refine ⟨ModelGroup.refersTo_of_mem g, fun h => ?_⟩
  induction h with
  | @itself g p hp ht =>
      obtain ⟨_, particles⟩ := g
      refine mem_groupRefsOf hp ?_
      obtain ⟨_, _, term⟩ := p
      obtain rfl : term = .groupRef name := ht
      exact List.mem_cons_self
  | @nested g inner p hp ht _ ih =>
      obtain ⟨_, particles⟩ := g
      refine mem_groupRefsOf hp ?_
      obtain ⟨_, _, term⟩ := p
      obtain rfl : term = .group inner := ht
      exact ih

namespace Declarations

variable {α : Type} {kind : DeclarationKind} {name : α → QName}

theorem nodup_keys_declareAll {file : File} (declarations : List α)
    {table : Table QName (Located α)} (hn : (Table.keys table).Nodup) :
    (Table.keys (declareAll kind file name declarations table).1).Nodup := by
  induction declarations generalizing table with
  | nil => exact hn
  | cons d rest ih =>
      rw [declareAll_cons]
      refine ih ?_
      unfold declare
      split
      · exact hn
      · next hfree =>
          have hkeys : (Table.keys (table.insert (name d) ⟨file, d⟩)).Perm
              (name d :: Table.keys table) :=
            (Table.insert_perm _ (Table.find?_eq_none_iff.1 hfree)).map _
          exact hkeys.nodup_iff.2 (List.nodup_cons.2 ⟨Table.find?_eq_none_iff.1 hfree, hn⟩)

/-- No name has two entries, even if there are two declarations of it. -/
theorem Row.nodup_keys_addFiles (row : Row α) (files : List File) {d : Declarations}
    (hn : (Table.keys (row.table d)).Nodup) :
    (Table.keys (row.table (d.addFiles files).1)).Nodup := by
  induction files generalizing d with
  | nil => exact hn
  | cons file rest ih =>
      rw [addFiles_cons]
      refine ih ?_
      rw [row.addFile_table]
      exact nodup_keys_declareAll _ hn

end Declarations

namespace Linkage

open Declarations Relation

variable {l : Linkage}

/-- The declarations of one kind are found under their names, each name at most once. -/
structure IsIndexed {α : Type} (l : Linkage) (row : Row α) : Prop where
  nodup : (Table.keys (row.table l.declarations)).Nodup
  named : ∀ {q : QName} {a : Located α}, (row.table l.declarations).find? q = some a →
    row.name a.declaration = q

theorem isIndexed_ofCatalog {α : Type} (catalog : Catalog) (resolution : Resolution)
    (row : Row α) : (ofCatalog catalog resolution).1.IsIndexed row where
  nodup := row.nodup_keys_addFiles catalog.files (by rw [row.table_empty]; exact List.nodup_nil)
  named h := (located_of_find? row h).2.2

namespace IsIndexed

variable {α : Type} {row : Row α} (h : l.IsIndexed row)
include h

theorem find?_of_mem {entry : QName × Located α} (he : entry ∈ row.table l.declarations) :
    (row.table l.declarations).find? entry.1 = some entry.2 :=
  Table.find?_of_mem h.nodup he

/-- What a name stands for is found under its own name. -/
theorem find?_of_lookup? {file : File} {name : QName} {a : Located α}
    (ha : l.lookup? row file name = some a) :
    (row.table l.declarations).find? (row.name a.declaration) = some a := by
  obtain ⟨r, -, hr⟩ := Option.bind_eq_some_iff.1 ha
  rwa [h.named hr]

end IsIndexed

/-- Different names that are found are at most as many as there are declarations. -/
theorem length_le_of_find? {α : Type} (row : Row α) {names : List QName} (hn : names.Nodup)
    (hf : ∀ q ∈ names, ∃ a, (row.table l.declarations).find? q = some a) :
    names.length ≤ (row.table l.declarations).length := by
  have hsub : names ⊆ Table.keys (row.table l.declarations) := fun q hq => by
    obtain ⟨a, ha⟩ := hf q hq
    exact Table.contains_iff.1 (by rw [Table.contains, ha]; rfl)
  have hle := (List.subperm_of_subset hn hsub).length_le
  rwa [Table.keys, List.length_map] at hle

/-! ### Base types -/

/-- The base of a type stands for another one. -/
def Derives (l : Linkage) (t base : Located NamedType) : Prop :=
  ∃ name, t.declaration.definition.base? = some name ∧ l.type? t.file name = some base

/-- However far base types are followed from a type, there is a further one. -/
def IsEndless (l : Linkage) (t : Located NamedType) : Prop :=
  ∀ u, ReflTransGen l.Derives t u → ∃ base, l.Derives u base

theorem Derives.eq {t u v : Located NamedType} (hu : l.Derives t u) (hv : l.Derives t v) : u = v := by
  obtain ⟨name, hname, hu⟩ := hu
  obtain ⟨other, hother, hv⟩ := hv
  obtain rfl := Option.some.inj (hname.symm.trans hother)
  exact Option.some.inj (hu.symm.trans hv)

theorem IsIndexed.find?_of_derives (hi : l.IsIndexed .types) {t base : Located NamedType}
    (h : l.Derives t base) : l.declarations.types.find? base.declaration.name = some base := by
  obtain ⟨_, -, hbase⟩ := h
  exact hi.find?_of_lookup? hbase

theorem IsEndless.of_derives {t u : Located NamedType} (h : l.IsEndless t) (hu : l.Derives t u) :
    l.IsEndless u := fun v hv => h v (.head hu hv)

/-- A type on a cycle has a base on the same cycle. -/
theorem Derives.transGen_self {t u : Located NamedType} (hu : l.Derives t u)
    (hc : TransGen l.Derives t t) : TransGen l.Derives u u := by
  obtain ⟨v, hv, hback⟩ := TransGen.head'_iff.1 hc
  obtain rfl := hu.eq hv
  exact .tail' hback hu

/-- Base types that lead into a cycle never end. -/
theorem isEndless_of_cycle {t c : Located NamedType} (ht : ReflTransGen l.Derives t c)
    (hc : TransGen l.Derives c c) : l.IsEndless t := by
  have hstep : ∀ {c}, TransGen l.Derives c c → ∃ base, l.Derives c base := fun hc => by
    obtain ⟨v, hv, -⟩ := TransGen.head'_iff.1 hc
    exact ⟨v, hv⟩
  have hunique : Relator.RightUnique l.Derives := fun _ _ _ => Derives.eq
  intro u hu
  rcases ReflTransGen.total_of_right_unique hunique hu ht with huc | hcu
  · rcases ReflTransGen.cases_head huc with rfl | ⟨v, hv, -⟩
    · exact hstep hc
    · exact ⟨v, hv⟩
  · refine hstep ?_
    clear hu
    induction hcu with
    | refl => exact hc
    | tail _ hd ih => exact hd.transGen_self ih

/-- Following the bases of a type to a type that is on the chain already, with the chain then. -/
inductive BaseSearch (l : Linkage) :
    List QName → Located NamedType → Option (List QName) → Prop
  | ends {chain : List QName} {t : Located NamedType} (h : ∀ base, ¬ l.Derives t base) :
    BaseSearch l chain t none
  | loops {chain : List QName} {t base : Located NamedType} (h : l.Derives t base)
    (hc : base.declaration.name ∈ chain) : BaseSearch l chain t (some chain)
  | goes {chain : List QName} {t base : Located NamedType} {result : Option (List QName)}
    (h : l.Derives t base) (hc : base.declaration.name ∉ chain)
    (hrest : BaseSearch l (chain ++ [base.declaration.name]) base result) :
    BaseSearch l chain t result

/-- The search for a loop of base types ends within as many steps as there are types besides the
chain. -/
theorem baseSearch_baseLoop? (hi : l.IsIndexed .types) (steps : Nat) :
    ∀ {chain : List QName} {t : Located NamedType}, chain.Nodup →
      (∀ q ∈ chain, ∃ a, l.declarations.types.find? q = some a) →
      l.declarations.types.length < steps + chain.length →
      l.BaseSearch chain t (l.baseLoop? steps chain t) := by
  induction steps with
  | zero =>
      intro chain t hn hf hlen
      have hle : chain.length ≤ l.declarations.types.length :=
        length_le_of_find? .types hn hf
      omega
  | succ steps ih =>
      intro chain t hn hf hlen
      rw [baseLoop?]
      cases hb : t.declaration.definition.base? with
      | none =>
          refine .ends fun base hbase => ?_
          obtain ⟨name, hname, -⟩ := hbase
          exact nomatch hb.symm.trans hname
      | some base =>
          dsimp only
          cases ht : l.type? t.file base with
          | none =>
              refine .ends fun u hbase => ?_
              obtain ⟨name, hname, hu⟩ := hbase
              obtain rfl := Option.some.inj (hb.symm.trans hname)
              exact nomatch ht.symm.trans hu
          | some next =>
              have hd : l.Derives t next := ⟨base, hb, ht⟩
              dsimp only
              by_cases hc : next.declaration.name ∈ chain
              · rw [if_pos hc]
                exact .loops hd hc
              · rw [if_neg hc]
                refine .goes hd hc (ih ?_ ?_ ?_)
                · exact List.nodup_append.2 ⟨hn, List.nodup_singleton _, fun q hq r hr heq =>
                    hc (List.mem_singleton.1 hr ▸ heq ▸ hq)⟩
                · rw [List.forall_mem_append]
                  exact ⟨hf, List.forall_mem_singleton.2 ⟨next, hi.find?_of_derives hd⟩⟩
                · rw [List.length_append, List.length_singleton]
                  omega

/-- Where the search for a loop of base types stops, base types end. -/
theorem BaseSearch.not_isEndless {chain : List QName} {t : Located NamedType}
    {result : Option (List QName)} (h : l.BaseSearch chain t result) (hr : result = none) :
    ¬ l.IsEndless t := by
  induction h with
  | ends hend =>
      intro ht
      obtain ⟨base, hb⟩ := ht _ .refl
      exact hend base hb
  | loops => exact nomatch hr
  | goes hd _ _ ih => exact fun ht => ih hr (ht.of_derives hd)

/-- The chain that a search comes back to starts where it did, passes through types that follow from
there, and leads into a cycle. -/
theorem BaseSearch.leads (hi : l.IsIndexed .types) {start t : Located NamedType}
    {chain loop : List QName} {result : Option (List QName)} (h : l.BaseSearch chain t result)
    (hr : result = some loop)
    (hchain : ∀ q ∈ chain, ∃ a, l.declarations.types.find? q = some a ∧
      ReflTransGen l.Derives start a ∧ ReflTransGen l.Derives a t)
    (ht : ReflTransGen l.Derives start t) :
    (∀ q ∈ loop, ∃ a, l.declarations.types.find? q = some a ∧ ReflTransGen l.Derives start a) ∧
      chain ⊆ loop ∧ ∃ c, ReflTransGen l.Derives start c ∧ TransGen l.Derives c c := by
  induction h with
  | ends => exact nomatch hr
  | @loops chain t base hd hc =>
      obtain rfl := Option.some.inj hr
      refine ⟨fun q hq => ?_, List.Subset.refl _, base, ht.tail hd, ?_⟩
      · obtain ⟨a, ha, hsa, -⟩ := hchain q hq
        exact ⟨a, ha, hsa⟩
      · obtain ⟨a, ha, -, hat⟩ := hchain _ hc
        obtain rfl := Option.some.inj (ha.symm.trans (hi.find?_of_derives hd))
        exact .tail' hat hd
  | @goes chain t base result hd hc _ ih =>
      have hnext : ∀ q ∈ chain ++ [base.declaration.name], ∃ a,
          l.declarations.types.find? q = some a ∧ ReflTransGen l.Derives start a ∧
            ReflTransGen l.Derives a base := by
        intro q hq
        rcases List.mem_append.1 hq with hq | hq
        · obtain ⟨a, ha, hsa, hat⟩ := hchain q hq
          exact ⟨a, ha, hsa, hat.tail hd⟩
        · obtain rfl := List.mem_singleton.1 hq
          exact ⟨base, hi.find?_of_derives hd, ht.tail hd, .refl⟩
      obtain ⟨hloop, hsub, hcycle⟩ := ih hr hnext (ht.tail hd)
      exact ⟨hloop, List.Subset.trans (List.subset_append_left _ _) hsub, hcycle⟩

/-! ### Groups -/

/-- A group refers to another one, outside its elements. -/
def Nests (l : Linkage) (g inner : Located NamedGroup) : Prop :=
  ∃ name, g.declaration.group.RefersTo name ∧ l.group? g.file name = some inner

/-- A group leads to one that contains itself. -/
def LeadsToItself (l : Linkage) (g : Located NamedGroup) : Prop :=
  ∃ c, ReflTransGen l.Nests g c ∧ TransGen l.Nests c c

theorem LeadsToItself.exists_nests {g : Located NamedGroup} (h : l.LeadsToItself g) :
    ∃ inner, l.Nests g inner ∧ l.LeadsToItself inner := by
  obtain ⟨c, hgc, hc⟩ := h
  rcases ReflTransGen.cases_head hgc with rfl | ⟨inner, hinner, hrest⟩
  · obtain ⟨inner, hinner, hback⟩ := TransGen.head'_iff.1 hc
    exact ⟨inner, hinner, g, hback, hc⟩
  · exact ⟨inner, hinner, c, hrest, hc⟩

theorem LeadsToItself.of_nests {g inner : Located NamedGroup} (hn : l.Nests g inner)
    (h : l.LeadsToItself inner) : l.LeadsToItself g := by
  obtain ⟨c, hic, hc⟩ := h
  exact ⟨c, .head hn hic, hc⟩

/-- Following the names of groups in turn, each as far as it leads, to a group that is on the path
already. -/
inductive GroupSearch (l : Linkage) : List QName → File → List QName → Bool → Prop
  | done {path : List QName} {file : File} : GroupSearch l path file [] false
  | missing {path names : List QName} {file : File} {name : QName} {found : Bool}
    (h : l.group? file name = none) (hrest : GroupSearch l path file names found) :
    GroupSearch l path file (name :: names) found
  | loops {path names : List QName} {file : File} {name : QName} {target : Located NamedGroup}
    (h : l.group? file name = some target) (hp : target.declaration.name ∈ path) :
    GroupSearch l path file (name :: names) true
  | within {path names : List QName} {file : File} {name : QName} {target : Located NamedGroup}
    (h : l.group? file name = some target) (hp : target.declaration.name ∉ path)
    (hinner : GroupSearch l (path ++ [target.declaration.name]) target.file
      target.declaration.group.groupRefs true) :
    GroupSearch l path file (name :: names) true
  | past {path names : List QName} {file : File} {name : QName} {target : Located NamedGroup}
    {found : Bool} (h : l.group? file name = some target) (hp : target.declaration.name ∉ path)
    (hinner : GroupSearch l (path ++ [target.declaration.name]) target.file
      target.declaration.group.groupRefs false)
    (hrest : GroupSearch l path file names found) :
    GroupSearch l path file (name :: names) found

/-- The search goes through all names if it does through what each of them stands for. -/
theorem groupSearch_any {path : List QName} {file : File} {inside : Located NamedGroup → Bool}
    (names : List QName)
    (h : ∀ target : Located NamedGroup, (∃ name ∈ names, l.group? file name = some target) →
      target.declaration.name ∉ path →
      l.GroupSearch (path ++ [target.declaration.name]) target.file
        target.declaration.group.groupRefs (inside target)) :
    l.GroupSearch path file names (names.any fun name =>
      match l.group? file name with
      | none => false
      | some target => path.contains target.declaration.name || inside target) := by
  induction names with
  | nil => exact .done
  | cons name rest ih =>
      have hrest := ih fun target ⟨other, ho, ht⟩ =>
        h target ⟨other, List.mem_cons_of_mem _ ho, ht⟩
      rw [List.any_cons]
      cases ht : l.group? file name with
      | none => exact .missing ht hrest
      | some target =>
          dsimp only
          by_cases hp : target.declaration.name ∈ path
          · rw [List.contains_iff_mem.2 hp]
            exact .loops ht hp
          · rw [Bool.eq_false_iff.2 fun hc => hp (List.contains_iff_mem.1 hc), Bool.false_or]
            have hinner := h target ⟨name, List.mem_cons_self, ht⟩ hp
            cases hin : inside target with
            | true => exact .within ht hp (hin ▸ hinner)
            | false => exact .past ht hp (hin ▸ hinner) hrest

/-- The search for a loop of groups ends within as many steps as there are groups besides the
path. -/
theorem groupSearch_groupLoops (hi : l.IsIndexed .groups) (steps : Nat) :
    ∀ {path : List QName} {file : File} {group : ModelGroup}, path.Nodup →
      (∀ q ∈ path, ∃ a, l.declarations.groups.find? q = some a) →
      l.declarations.groups.length < steps + path.length →
      l.GroupSearch path file group.groupRefs (l.groupLoops steps path file group) := by
  induction steps with
  | zero =>
      intro path file group hn hf hlen
      have hle : path.length ≤ l.declarations.groups.length :=
        length_le_of_find? .groups hn hf
      omega
  | succ steps ih =>
      intro path file group hn hf hlen
      rw [groupLoops]
      refine groupSearch_any _ fun target ⟨name, _, ht⟩ hp => ih ?_ ?_ ?_
      · exact List.nodup_append.2 ⟨hn, List.nodup_singleton _, fun q hq r hr heq =>
          hp (List.mem_singleton.1 hr ▸ heq ▸ hq)⟩
      · rw [List.forall_mem_append]
        exact ⟨hf, List.forall_mem_singleton.2 ⟨target, hi.find?_of_lookup? ht⟩⟩
      · rw [List.length_append, List.length_singleton]
        omega

/-- Where the search for a loop of groups finds none, no group contains itself. -/
theorem GroupSearch.not_leadsToItself {path names : List QName} {file : File} {found : Bool}
    (h : l.GroupSearch path file names found) (hr : found = false) :
    ∀ name ∈ names, ∀ target, l.group? file name = some target → ¬ l.LeadsToItself target := by
  induction h with
  | done => exact List.forall_mem_nil _
  | missing hnone _ ih =>
      refine List.forall_mem_cons.2 ⟨fun target ht => ?_, ih hr⟩
      exact nomatch hnone.symm.trans ht
  | loops => exact nomatch hr
  | within => exact nomatch hr
  | past hsome _ _ _ ihinner ih =>
      refine List.forall_mem_cons.2 ⟨fun target ht hself => ?_, ih hr⟩
      obtain rfl := Option.some.inj (hsome.symm.trans ht)
      obtain ⟨inner, ⟨name, hname, hinner⟩, hleads⟩ := hself.exists_nests
      exact ihinner rfl name (ModelGroup.mem_groupRefs_iff.2 hname) inner hinner hleads

/-- A search that finds a loop started from a group that leads to one that contains itself. -/
theorem GroupSearch.leadsToItself (hi : l.IsIndexed .groups) {path names : List QName}
    {file : File} {found : Bool} (h : l.GroupSearch path file names found) (hr : found = true) :
    ∀ g : Located NamedGroup, g.file = file → names ⊆ g.declaration.group.groupRefs →
      (∀ q ∈ path, ∃ a, l.declarations.groups.find? q = some a ∧ ReflTransGen l.Nests a g) →
      l.LeadsToItself g := by
  have hnests : ∀ {g : Located NamedGroup} {file name names target}, g.file = file →
      name :: names ⊆ g.declaration.group.groupRefs → l.group? file name = some target →
      l.Nests g target := fun {g} _ name _ _ hfile hnames ht =>
    ⟨name, ModelGroup.mem_groupRefs_iff.1 (hnames List.mem_cons_self), hfile ▸ ht⟩
  induction h with
  | done => exact nomatch hr
  | missing _ _ ih =>
      intro g hfile hnames hpath
      exact ih hr g hfile (fun _ hq => hnames (List.mem_cons_of_mem _ hq)) hpath
  | @loops path names file name target ht hp =>
      intro g hfile hnames hpath
      have hstep := hnests hfile hnames ht
      have hfound : l.declarations.groups.find? target.declaration.name = some target :=
        hi.find?_of_lookup? ht
      obtain ⟨a, ha, hag⟩ := hpath _ hp
      obtain rfl := Option.some.inj (ha.symm.trans hfound)
      exact ⟨a, .single hstep, .tail' hag hstep⟩
  | @within path names file name target ht hp _ ih =>
      intro g hfile hnames hpath
      have hstep := hnests hfile hnames ht
      refine .of_nests hstep (ih rfl target rfl (List.Subset.refl _) fun q hq => ?_)
      rcases List.mem_append.1 hq with hq | hq
      · obtain ⟨a, ha, hag⟩ := hpath q hq
        exact ⟨a, ha, hag.tail hstep⟩
      · obtain rfl := List.mem_singleton.1 hq
        exact ⟨target, hi.find?_of_lookup? ht, .refl⟩
  | past _ _ _ _ _ ih =>
      intro g hfile hnames hpath
      exact ih hr g hfile (fun _ hq => hnames (List.mem_cons_of_mem _ hq)) hpath

end Linkage

end Crosswalk
