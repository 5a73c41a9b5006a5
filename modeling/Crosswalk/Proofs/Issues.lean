import Crosswalk.Proofs.Batch
import Crosswalk.Proofs.Conversion.ContentReports
import Crosswalk.Proofs.Problem

/-!
# The issues of a batch

What a conversion passes over because another file states it is left to the conversion of that file.
Types are described by their own file, and what is expanded in place of its name is looked at by its
own file if its conversion comes upon it as well. Then every issue of a restriction that a document
of the batch depends on is among the diagnostics, under the file that states it, unless the
restriction narrows the character data of a complex type.
-/

namespace Crosswalk

open Conversion

theorem Linkage.Narrows.within {l : Linkage} {scope : File} {p q : Part} (hpq : p.IsWithin q)
    (h : l.Narrows (scope, q)) : l.Narrows (scope, p) := by
  cases hpq with
  | same => exact h
  | inherited => exact h

namespace Batch

variable {options : Options} {files : List (String × String)} {batch : Batch}

/-- The conversion of a file of a batch that succeeds reports nothing fatal, and what it reports is
among the diagnostics. -/
theorem fine_of_ofFiles (h : ofFiles options files = .ok batch) {file : File}
    (hf : file ∈ (catalogOf options files).files) :
    (∀ p ∈ (convertFile (contextOf options files file)).2, p.isFatal = false) ∧
      (convertFile (contextOf options files file)).2 ⊆ batch.diagnostics := by
  obtain ⟨hfine, -, rfl⟩ := ofFiles_eq_ok_iff.1 h
  have hmem : (convertFile (contextOf options files file)).2 ⊆ problemsOf options files :=
    fun p hp => List.mem_append_right _ (List.mem_flatMap.2 ⟨file, hf, hp⟩)
  exact ⟨fun p hp => hfine p (hmem hp), fun p hp => Problem.mem_sortByFile.2 (hmem hp)⟩

/-- Where a file visits itself whatever it shares with others, every restriction that it states is
reported if some conversion comes upon it, unless it narrows what a complex type has: the
restriction starts from some shape, and whatever is at issue when a shape like that is restricted is
among the diagnostics of the batch. -/
theorem issues_reported (h : ofFiles options files = .ok batch) {home file : File}
    (hhome : home ∈ (catalogOf options files).files)
    (hshared : (linkageOf options files).IsVisitedAtHome home)
    (hfile : file ∈ (catalogOf options files).files) {part : Part}
    (hvisits : (linkageOf options files).Visits file (home, part)) {base : SimpleBase}
    {facets : List Facet} (hstates : part.States base facets)
    (hapart : ¬ (linkageOf options files).Narrows (home, part)) :
    (∃ inherited, Restriction.Inherits ⟨home, base, facets⟩ (contextOf options files home)
      inherited) ∧
    ∃ typeName, ∀ other inherited,
      Restriction.Inherits ⟨home, base, facets⟩ (contextOf options files other) inherited →
      ∀ issue ∈ (inherited.restrict facets).2,
        issueProblem home typeName issue ∈ batch.diagnostics := by
  obtain ⟨hfine, hkept⟩ := fine_of_ofFiles h hhome
  obtain ⟨part', hwithin, hvisits'⟩ :=
    hvisits.atHome (Linkage.isLinked_ofCatalog _ _) hshared hfile
  have hstated : Restriction.IsStatedAt ⟨home, base, facets⟩ (contextOf options files home)
      (home, part') :=
    ⟨rfl, hstates.within hwithin, beq_self_eq_true home.filename,
      fun hnarrows => hapart (hnarrows.within hwithin)⟩
  obtain ⟨inherited, typeName, hinherits, hissues⟩ :=
    isReported_convertFile hstated hvisits' hfine
  refine ⟨⟨inherited, hinherits⟩, typeName, fun other inherited' hinherits' issue hi => ?_⟩
  have hlinkage :
      (contextOf options files other).linkage = (contextOf options files home).linkage := rfl
  rw [hinherits'.issues_eq hlinkage hinherits facets] at hi
  exact hkept (hissues issue hi)

theorem isVisitedAtHome_of_catalogOf {home : File} (h : (catalogOf options files).files = [home]) :
    (linkageOf options files).IsVisitedAtHome home :=
  Linkage.isVisitedAtHome_of_singleton h

/-- A file with an element whose type states a length that is no number. -/
def unreadableFile : String × String :=
  ("u", "<s:schema xmlns:s='http://www.w3.org/2001/XMLSchema'><s:element name='e'><s:simpleType>" ++
    "<s:restriction base='s:string'><s:length value='x'/></s:restriction></s:simpleType>" ++
    "</s:element></s:schema>")

/-- The parts of the file. -/
def unreadableParts : List Xml.Event :=
  Xml.schemaParts (Xml.elementParts "element" [("name", "e")] (Xml.elementParts "simpleType" []
    (Xml.elementParts "restriction" [("base", "s:string")]
      (Xml.elementParts "length" [("value", "x")] []))))

theorem collect_unreadable : collect {} [unreadableFile] =
    collectParts {} (fun _ => unreadableParts) [unreadableFile] :=
  collect_of_characters (Xml.toList_append_of
    (Xml.toList_append_of String.toList_ofList String.toList_ofList) String.toList_ofList)
    (by cbv)

theorem isOk_unreadable : (ofFiles {} [unreadableFile]).isOk = true := by
  refine isOk_of_problemsOf ?_
  rw [problemsOf, linkageOf, catalogOf, collect_unreadable]
  decide +kernel

/-- Whether the type of an element is a restriction of a simple type. -/
def isRestriction : ElementType → Bool
  | .simple (.restriction _ _) => true
  | _ => false

/-- The batch has one file, which describes an element whose type is a restriction. -/
theorem exists_unreadable : ∃ home element base facets,
    (catalogOf {} [unreadableFile]).files = [home] ∧ element ∈ home.schema.elements ∧
      element.type = .simple (.restriction base facets) := by
  have hall : (catalogOf {} [unreadableFile]).files.length = 1 ∧
      (catalogOf {} [unreadableFile]).files.all (fun home =>
        home.schema.elements.any fun element => isRestriction element.type) = true := by
    rw [catalogOf, collect_unreadable]
    decide +kernel
  obtain ⟨home, hfiles⟩ := List.length_eq_one_iff.1 hall.1
  have hany := hall.2
  rw [hfiles, List.all_cons, List.all_nil, Bool.and_true, List.any_eq_true] at hany
  obtain ⟨element, he, ht⟩ := hany
  unfold isRestriction at ht
  split at ht
  · next base facets htype => exact ⟨home, element, base, facets, hfiles, he, htype⟩
  · cases ht

theorem issues_reported_unreadable : ∃ batch home base facets,
    ofFiles {} [unreadableFile] = .ok batch ∧
    (linkageOf {} [unreadableFile]).IsVisitedAtHome home ∧
    (linkageOf {} [unreadableFile]).Visits home (home, .simple (.restriction base facets)) ∧
    (∃ inherited, Restriction.Inherits ⟨home, base, facets⟩ (contextOf {} [unreadableFile] home)
      inherited) ∧
    ∃ typeName, ∀ other inherited,
      Restriction.Inherits ⟨home, base, facets⟩ (contextOf {} [unreadableFile] other) inherited →
      ∀ issue ∈ (inherited.restrict facets).2,
        issueProblem home typeName issue ∈ batch.diagnostics := by
  obtain ⟨batch, h⟩ := ok_of_isOk isOk_unreadable
  obtain ⟨home, element, base, facets, hfiles, he, ht⟩ := exists_unreadable
  have hhome : home ∈ (catalogOf {} [unreadableFile]).files := by
    rw [hfiles]
    exact List.mem_cons_self
  have hshared := isVisitedAtHome_of_catalogOf hfiles
  have hvisits : (linkageOf {} [unreadableFile]).Visits home
      (home, .simple (.restriction base facets)) :=
    ⟨.element element, .element he, .single (.simpleType ht)⟩
  exact ⟨batch, home, base, facets, h, hshared, hvisits,
    issues_reported h hhome hshared hhome hvisits .type id⟩

end Batch

end Crosswalk
