import Crosswalk.Proofs.Session
import Crosswalk.Proofs.Text.Resolve
import Crosswalk.Validation.SchemaSet

/-!
# Documents of a set by URI

Whoever checks instances reads the link of a document against the URI of that document, and asks the
set of the batch for the document of the resulting URI. Before that, the link was looked at by itself:
the name in front of its `#` was decoded, and the document of that name found. Both lead to the same
document. A link names a document by its encoded name, which is a segment without a slash, so it
stands last in the URI; and since the name has no slash, no document has the whole URI for a name, and
the segment is decoded before it is taken for a name itself.
-/

namespace Crosswalk

open Json Conversion

/-- What follows a separator is the last piece, if there is no separator in it. -/
theorem Text.lastPiece_append_cons {isSeparator : Char → Bool} (before : List Char) {c : Char}
    {cs : List Char} (hc : isSeparator c = true) (hcs : ∀ c ∈ cs, isSeparator c = false) :
    lastPiece isSeparator (before ++ c :: cs) = cs := by
  have hpiece : ∀ c ∈ cs.reverse, (!isSeparator c) = true := fun c h => by
    rw [hcs c (List.mem_reverse.1 h)]
    rfl
  rw [lastPiece, List.reverse_append, List.reverse_cons, List.append_assoc,
    List.takeWhile_append_of_pos hpiece, List.singleton_append,
    List.takeWhile_cons_of_neg (by simp [hc]), List.append_nil, List.reverse_reverse]

namespace Uri

/-- An encoded name is a segment, unless it has a slash or is empty or left out. -/
theorem isSegment_encodePath {text : String} (hslash : '/' ∉ text.toList) (hne : text ≠ "")
    (hlast : text.toList.getLast? ≠ some '.') : IsSegment (Percent.encodePath text).toList where
  noMark c hc hm := by
    have hmark : ∀ c ∈ marks, Percent.isUnreserved c = false ∧ c ≠ '%' := by
      simp [marks, Percent.isUnreserved]
    obtain ⟨hkeeps, hmem⟩ := Percent.mem_of_mem_encode (hmark c hm).1 (hmark c hm).2 hc
    obtain rfl : c = '/' := by simpa using hkeeps
    exact hslash hmem
  nonempty h := hne (Percent.encode_eq_empty (String.toList_eq_nil_iff.1 h))
  notDot h := hlast <| by
    have hdot : (Percent.encodePath ".").toList = ['.'] := by decide
    rw [Percent.encode_injective rfl (String.toList_inj.1 (h.trans hdot.symm))]
    rfl
  notDots h := hlast <| by
    have hdots : (Percent.encodePath "..").toList = ['.', '.'] := by decide
    rw [Percent.encode_injective rfl (String.toList_inj.1 (h.trans hdots.symm))]
    rfl

end Uri

namespace SchemaSet

theorem toList_baseUri_append (text : String) : (baseUri ++ text).toList =
    "json-schema".toList ++ ':' :: '/' :: '/' :: ([] ++ '/' :: text.toList) := by
  have hbase : baseUri.toList = "json-schema".toList ++ [':', '/', '/', '/'] := by decide
  rw [String.toList_append, hbase, List.append_assoc]
  rfl

section

variable {segment : String} (h : Uri.IsSegment segment.toList)
include h

/-- A segment that is read against the URI of a document of the set takes its place. -/
theorem resolve_segment (prior : String) (hp : ∀ c ∈ prior.toList, c ∉ Uri.marks) :
    Uri.resolve (baseUri ++ prior) segment = baseUri ++ segment := by
  rw [← String.toList_inj, Uri.resolve, String.toList_ofList, toList_baseUri_append,
    toList_baseUri_append]
  exact Uri.against_segment (by simp [Uri.marks]) (by decide) (List.forall_mem_nil _) hp h

/-- The set resolves such a reference alike, without looking at the document. -/
theorem uriOf_segment : uriOf segment = baseUri ++ segment := by
  have hcolon : ':' ∉ segment.toList := fun hc => h.noMark ':' hc (by decide)
  rw [uriOf, if_neg (by simpa using hcolon)]

theorem lastSegment_segment : lastSegment (baseUri ++ segment) = segment := by
  have hhash : ∀ c ∈ (baseUri ++ segment).toList, (c != '#') = true := by
    rw [String.toList_append, List.forall_mem_append]
    refine ⟨by simp [baseUri], fun c hc => bne_iff_ne.2 ?_⟩
    rintro rfl
    exact h.noMark '#' hc (by decide)
  have hslash : ∀ c ∈ segment.toList, (c == '/') = false := fun c hc => by
    rw [beq_eq_false_iff_ne]
    rintro rfl
    exact h.noMark '/' hc (by decide)
  rw [lastSegment, List.takeWhile_eq_self_iff.2 hhash, toList_baseUri_append, List.nil_append]
  refine (congrArg String.ofList ?_).trans String.ofList_toList
  exact Text.lastPiece_append_cons ("json-schema".toList ++ [':', '/', '/']) (by decide) hslash

end

variable {documents : List Document} {d : Document}

theorem ofDocuments_eq (documents : List Document) :
    ofDocuments documents = ⟨Table.ofList (documents.map fun d => (d.identifier, d.schema))⟩ := by
  induction documents using List.reverseRecOn with
  | nil => rfl
  | append_singleton documents d ih =>
      rw [ofDocuments, addDocuments, List.foldl_append, List.map_append, List.map_singleton,
        Table.ofList_append_singleton]
      exact congrArg (·.add d.identifier d.schema) ih

/-- A document that no other one has the identifier of is got by it. -/
theorem get?_identifier (hd : d ∈ documents)
    (hdistinct : ∀ e ∈ documents, e.identifier = d.identifier → e = d) :
    (ofDocuments documents).get? d.identifier = some d.schema := by
  rw [ofDocuments_eq, get?]
  have hcontains : Table.contains (Table.ofList (documents.map fun d => (d.identifier, d.schema)))
      d.identifier = true :=
    Table.contains_ofList.2 (List.mem_map.2 ⟨_, List.mem_map_of_mem hd, rfl⟩)
  obtain ⟨schema, hfind⟩ := Option.isSome_iff_exists.1 hcontains
  obtain ⟨e, he, heq⟩ := List.mem_map.1 (Table.mem_ofList (Table.mem_of_find? hfind))
  obtain ⟨hidentifier, rfl⟩ := Prod.mk.inj heq
  rw [hfind, hdistinct e he hidentifier]

theorem get?_eq_none {name : String} (h : ∀ d ∈ documents, d.identifier ≠ name) :
    (ofDocuments documents).get? name = none := by
  rw [ofDocuments_eq]
  refine Table.find?_ofList_eq_none fun hm => ?_
  obtain ⟨entry, he, rfl⟩ := List.mem_map.1 hm
  obtain ⟨d, hd, rfl⟩ := List.mem_map.1 he
  exact h d hd rfl

/-- By the encoded identifier at the end of a URI a document is retrieved, even if another document
has the encoded identifier for its own. -/
theorem retrieve?_encodePath (hslash : ∀ e ∈ documents, '/' ∉ e.identifier.toList)
    (hdistinct : ∀ e ∈ documents, e.identifier = d.identifier → e = d) (hd : d ∈ documents)
    (h : Uri.IsSegment (Percent.encodePath d.identifier).toList) :
    (ofDocuments documents).retrieve? (baseUri ++ Percent.encodePath d.identifier) =
      some d.schema := by
  have hwhole : (ofDocuments documents).get? (baseUri ++ Percent.encodePath d.identifier) = none :=
    get?_eq_none fun e he heq => hslash e he (heq ▸ by simp [baseUri])
  have hdecoded : Percent.decode? (Percent.encodePath d.identifier) = some d.identifier :=
    Percent.decode?_encode rfl _
  simp only [retrieve?, hwhole, lastSegment_segment h, hdecoded, Option.bind_some,
    get?_identifier hd hdistinct, Option.none_or, Option.some_or]

end SchemaSet

/-- The URI of a document: what it names itself, read against that of the set. -/
def Document.uri (document : Document) : String :=
  Uri.resolve SchemaSet.baseUri (((document.schema.field? "$id").bind Json.string?).getD "")

namespace Batch

variable {options : Options} {files : List (String × String)} {batch : Batch}

/-- A link names no other document, or one of these by its encoded identifier. -/
def Names (documents : List Document) (link : String) : Prop :=
  ∃ name fragment, Link.split? link = some (name, fragment) ∧
    (name ≠ "" → ∃ target ∈ documents, name = Percent.encodePath target.identifier)

theorem names_own (documents : List Document) (sectionName name : String) :
    Names documents (Link.text none sectionName name) :=
  ⟨"", _, Link.split?_text none sectionName name, fun h => absurd rfl h⟩

theorem names_linkText (file : File) {target : File}
    (ht : target ∈ (catalogOf options files).files) (sectionName name : String) :
    Names (documentsOf options files)
      (linkText (contextOf options files file) target sectionName name) := by
  unfold linkText
  split
  · exact names_own _ sectionName name
  · exact ⟨_, _, Link.split?_text (some target.identifier) sectionName name,
      fun _ => ⟨documentOf options files target, List.mem_map_of_mem ht, rfl⟩⟩

theorem reaches_names (file : File) :
    Reaches (contextOf options files file) (Names (documentsOf options files)) where
  type hl := isSchema_link (names_linkText file (Linkage.located_of_type? hl).1 _ _)
  element hl := isSchema_link (names_linkText file (Linkage.located_of_element? hl).1 _ _)
  group hl _ := isSchema_link (names_linkText file (Linkage.located_of_group? hl).1 _ _)

section

variable (hplain : Options.IsPlain options.outputExtension) (hne : options.outputExtension ≠ "")
  (h : ofFiles options files = .ok batch) {d : Document} (hd : d ∈ batch.documents)
include hplain h hd

theorem slash_not_mem_identifier : '/' ∉ d.identifier.toList := by
  rw [identifier_of_mem_documents h hd]
  exact fun hslash => absurd (Options.isSeparator_of_mem_identifierOf hplain hslash) (by decide)

include hne

theorem isSegment_identifier : Uri.IsSegment (Percent.encodePath d.identifier).toList := by
  have hidentifier := identifier_of_mem_documents h hd
  exact Uri.isSegment_encodePath (slash_not_mem_identifier hplain h hd)
    (hidentifier ▸ options.identifierOf_ne_empty d.source)
    (hidentifier ▸ Options.getLast?_identifierOf hplain hne)

theorem uri_of_mem_documents :
    d.uri = SchemaSet.baseUri ++ Percent.encodePath d.identifier := by
  have hid : d.schema.field? "$id" = some (.string (Percent.encodePath d.identifier)) := by
    rw [(succeeds_of_ofFiles h).documents] at hd
    obtain ⟨file, -, rfl⟩ := List.mem_map.1 hd
    exact Document.field?_id_assemble
  have hsegment := isSegment_identifier hplain hne h hd
  rw [Document.uri, hid]
  exact SchemaSet.resolve_segment hsegment "" (List.forall_mem_nil _)

end

/-- The set of a batch retrieves the documents that its links were checked against. The document that
a link names in front of its `#` is found by the name alone, and the set retrieves the same one by the
URI that the name makes with that of the document that holds the link. It does not matter what the
names of the documents consist of, nor if one is the encoded form of another one; but their extension
has to be plain, and must not be empty. -/
theorem retrieved_of_link (h : ofFiles options files = .ok batch)
    (hplain : Options.IsPlain options.outputExtension) (hne : options.outputExtension ≠ "") :
    ∀ d ∈ batch.documents, ∀ path link, (path, link) ∈ Document.linksIn "" d.schema →
      ∃ name fragment, Link.split? link = some (name, fragment) ∧
        (name ≠ "" → ∃ target ∈ batch.documents,
          Document.target? batch.documents d name = some target ∧
          Uri.resolve d.uri name = SchemaSet.uriOf name ∧
          (SchemaSet.ofDocuments batch.documents).retrieve? (Uri.resolve d.uri name) =
            some target.schema) := by
  intro d hd path link hlink
  have hnames : LinksSatisfy (Names batch.documents) d.schema := by
    have hs := succeeds_of_ofFiles h
    rw [hs.documents] at hd ⊢
    obtain ⟨file, hf, rfl⟩ := List.mem_map.1 hd
    exact linksSatisfy_of_reaches hs.converts hf (reaches_names file) fun name _ =>
      names_own _ "definitions" name
  obtain ⟨name, fragment, hsplit, hname⟩ := linksIn_satisfies hnames "" _ hlink
  refine ⟨name, fragment, hsplit, fun hn => ?_⟩
  obtain ⟨target, ht, rfl⟩ := hname hn
  have hdistinct := fun e he => (isProper_of_ofFiles h).identifier e he target ht
  have hsegment := isSegment_identifier hplain hne h ht
  have huri : Uri.resolve d.uri (Percent.encodePath target.identifier) =
      SchemaSet.baseUri ++ Percent.encodePath target.identifier := by
    rw [uri_of_mem_documents hplain hne h hd]
    exact SchemaSet.resolve_segment hsegment _ (isSegment_identifier hplain hne h hd).noMark
  refine ⟨target, ht, ?_, ?_, ?_⟩
  · refine Document.target?_encodePath ?_ (Document.find?_identifier ht hdistinct)
    rw [identifier_of_mem_documents h ht]
    exact options.identifierOf_ne_empty target.source
  · rw [huri, SchemaSet.uriOf_segment hsegment]
  · rw [huri]
    exact SchemaSet.retrieve?_encodePath (fun e he => slash_not_mem_identifier hplain h he)
      hdistinct ht hsegment

/-- A file with a space in its name, which declares an element. -/
def spacedFile : String × String :=
  ("a b", "<s:schema xmlns:s='http://www.w3.org/2001/XMLSchema'><s:element name='e'/></s:schema>")

/-- A file that has this name in encoded form, which refers to the element. -/
def encodedFile : String × String :=
  ("a%20b", "<s:schema xmlns:s='http://www.w3.org/2001/XMLSchema'><s:complexType name='t'>" ++
    "<s:all><s:element ref='e'/></s:all></s:complexType></s:schema>")

/-- The parts of these files. -/
def spacedParts (filename : String) : List Xml.Event :=
  if filename = "a b" then Xml.schemaParts (Xml.elementParts "element" [("name", "e")] [])
  else
    Xml.schemaParts (Xml.elementParts "complexType" [("name", "t")]
      (Xml.elementParts "all" [] (Xml.elementParts "element" [("ref", "e")] [])))

theorem collect_spaced :
    collect {} [spacedFile, encodedFile] =
      collectParts {} spacedParts [spacedFile, encodedFile] := by
  refine collect_of_events (List.forall_mem_cons.2 ⟨?_, List.forall_mem_singleton.2 ?_⟩)
  · exact (Xml.events?_trimStart String.toList_ofList).trans (by cbv)
  · exact (Xml.events?_trimStart
      (Xml.toList_append_of String.toList_ofList String.toList_ofList)).trans (by cbv)

theorem isOk_spaced : (ofFiles {} [spacedFile, encodedFile]).isOk = true := by
  refine isOk_of_problemsOf ?_
  rw [problemsOf, linkageOf, catalogOf, collect_spaced]
  decide +kernel

/-- The document of the second file has a link to that of the first one. -/
theorem exists_link_spaced : ∃ d ∈ documentsOf {} [spacedFile, encodedFile],
    d.identifier = "a%20b.json" ∧ ("/definitions/t/properties/e", "a%20b.json#/properties/e") ∈
      Document.linksIn "" d.schema := by
  rw [documentsOf_eq, collect_spaced]
  decide +kernel

/-- The name in that link is that of the document that holds it, but its encoded form is that of the
other one. -/
theorem retrieved_of_link_spaced : ∃ batch, ofFiles {} [spacedFile, encodedFile] = .ok batch ∧
    ∃ d ∈ batch.documents, d.identifier = "a%20b.json" ∧
      ∃ target ∈ batch.documents, target.identifier = "a b.json" ∧
        (SchemaSet.ofDocuments batch.documents).retrieve? (Uri.resolve d.uri "a%20b.json") =
          some target.schema := by
  obtain ⟨batch, h⟩ := ok_of_isOk isOk_spaced
  obtain ⟨d, hd, hidentifier, hlink⟩ := exists_link_spaced
  rw [← (succeeds_of_ofFiles h).documents] at hd
  obtain ⟨name, fragment, hsplit, hretrieved⟩ :=
    retrieved_of_link h (by decide) (by decide) d hd _ _ hlink
  obtain ⟨rfl, -⟩ : "a%20b.json" = name ∧ "/properties/e" = fragment := by
    have hparts : Link.split? "a%20b.json#/properties/e" = some ("a%20b.json", "/properties/e") := by
      decide
    rwa [hparts, Option.some.injEq, Prod.mk.injEq] at hsplit
  obtain ⟨target, ht, hfound, -, hschema⟩ := hretrieved (by decide)
  refine ⟨batch, h, d, hd, hidentifier, target, ht, ?_, hschema⟩
  have hdecoded : Percent.decode? "a%20b.json" = some "a b.json" :=
    @Percent.decode?_encode (· == '/') rfl "a b.json"
  rw [Document.target?, if_neg (by decide), hdecoded] at hfound
  simpa using List.find?_some hfound

end Batch

end Crosswalk
