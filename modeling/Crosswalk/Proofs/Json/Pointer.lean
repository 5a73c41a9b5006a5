import Crosswalk.Document
import Crosswalk.Proofs.Text.Percent
import Mathlib.Data.List.Nodup

/-!
# Links are read back

A link is split at its first `#`, its halves are decoded, and the pointer is cut at its slashes.
Whatever names a link was made of, this gives back the document, the section and the name: names are
escaped against slashes and percent-encoded against everything else. So a link leads to the member
that it was written for, and to nothing if there is no such member.
-/

namespace Crosswalk

namespace Text

/-- A piece ends at the next separator. -/
theorem piecesFrom_append_cons {separator : Char} {cs : List Char} (h : separator ∉ cs)
    (piece rest : List Char) :
    piecesFrom separator piece (cs ++ separator :: rest) =
      (piece.reverse ++ cs) :: piecesFrom separator [] rest := by
  induction cs generalizing piece with
  | nil => simp [piecesFrom]
  | cons c cs ih =>
      rw [List.mem_cons, not_or] at h
      simp [piecesFrom, Ne.symm h.1, ih h.2]

/-- The last piece has no separator behind it. -/
theorem piecesFrom_of_not_mem {separator : Char} {cs : List Char} (h : separator ∉ cs)
    (piece : List Char) : piecesFrom separator piece cs = [piece.reverse ++ cs] := by
  induction cs generalizing piece with
  | nil => simp [piecesFrom]
  | cons c cs ih =>
      rw [List.mem_cons, not_or] at h
      simp [piecesFrom, Ne.symm h.1, ih h.2]

end Text

namespace Pointer

theorem slash_not_mem_escapeChars (cs : List Char) : '/' ∉ escapeChars cs := by
  simp only [escapeChars, List.mem_flatMap, not_exists, not_and]
  intro c _ h
  split at h
  · simp at h
  · split at h
    · simp at h
    · next hc => exact hc (List.mem_singleton.1 h).symm

theorem unescapeChars_cons_of_ne {c : Char} (h : c ≠ '~') (rest : List Char) :
    unescapeChars (c :: rest) = c :: unescapeChars rest := by
  rw [unescapeChars.eq_4]
  · rintro _ rfl rfl
    exact h rfl
  · rintro _ rfl rfl
    exact h rfl

/-- Unescaping undoes escaping. -/
theorem unescapeChars_escapeChars (cs : List Char) : unescapeChars (escapeChars cs) = cs := by
  induction cs with
  | nil => rfl
  | cons c cs ih =>
      change unescapeChars ((if c = '~' then ['~', '0'] else if c = '/' then ['~', '1'] else [c])
        ++ escapeChars cs) = c :: cs
      split
      · next hc => simp [unescapeChars, ih, hc]
      · split
        · next hc => simp [unescapeChars, ih, hc]
        · next hc _ => simp [unescapeChars_cons_of_ne hc, ih]

/-- The segments of the pointer to a member of a section. -/
theorem segments?_escape (sectionName name : String) :
    segments? ("/" ++ escape sectionName ++ "/" ++ escape name) = some [sectionName, name] := by
  have hpieces : Text.pieces '/'
      (escapeChars sectionName.toList ++ '/' :: escapeChars name.toList) =
        [escapeChars sectionName.toList, escapeChars name.toList] := by
    rw [Text.pieces, Text.piecesFrom_append_cons (slash_not_mem_escapeChars _),
      Text.piecesFrom_of_not_mem (slash_not_mem_escapeChars _)]
    simp
  simp [segments?, escape, hpieces, unescapeChars_escapeChars]

end Pointer

namespace Link

/-- What stands behind the `#` of a link. -/
def fragment (sectionName name : String) : String :=
  "/" ++ Pointer.encode sectionName ++ "/" ++ Pointer.encode name

theorem text_eq (document : Option String) (sectionName name : String) :
    text document sectionName name =
      (document.map Percent.encodePath).getD "" ++ "#" ++ fragment sectionName name := by
  have h : ("#/" : String) = "#" ++ "/" := by decide
  rw [text, fragment, h]
  simp only [String.append_assoc]

/-- A link is split between document and pointer. -/
theorem split?_append {document : String} (h : '#' ∉ document.toList) (rest : String) :
    split? (document ++ "#" ++ rest) = some (document, rest) := by
  have hne : ∀ c ∈ document.toList, (c != '#') = true := by
    intro c hc
    rw [bne_iff_ne]
    rintro rfl
    exact h hc
  have htake : (document.toList ++ '#' :: rest.toList).takeWhile (· != '#') =
      document.toList := by
    rw [List.takeWhile_append_of_pos hne]
    simp
  have hdrop : (document.toList ++ '#' :: rest.toList).dropWhile (· != '#') =
      '#' :: rest.toList := by
    rw [List.dropWhile_append_of_pos hne]
    simp
  simp [split?, htake, hdrop]

theorem split?_text (document : Option String) (sectionName name : String) :
    split? (text document sectionName name) =
      some ((document.map Percent.encodePath).getD "", fragment sectionName name) := by
  rw [text_eq, split?_append]
  cases document with
  | none => simp
  | some d => exact Percent.hash_not_mem_encode rfl d

/-- The first part of a link tells which document it was made of. -/
theorem eq_of_encoded_eq {document document' : Option String} (h : document ≠ some "")
    (h' : document' ≠ some "")
    (heq : (document.map Percent.encodePath).getD "" =
      (document'.map Percent.encodePath).getD "") : document = document' := by
  cases document with
  | none =>
      cases document' with
      | none => rfl
      | some name' => exact absurd (Percent.encode_eq_empty heq.symm) fun hn => h' (congrArg _ hn)
  | some name =>
      cases document' with
      | none => exact absurd (Percent.encode_eq_empty heq) fun hn => h (congrArg _ hn)
      | some name' => exact congrArg some (Percent.encode_injective rfl heq)

theorem decode?_fragment (sectionName name : String) :
    Percent.decode? (fragment sectionName name) =
      some ("/" ++ Pointer.escape sectionName ++ "/" ++ Pointer.escape name) := by
  have hslash : ('/' : Char) ≠ '%' := by decide
  have hlist : ("/" : String).toList = ['/'] := by decide
  have hencode := @Percent.bytes?_encode_append (fun _ => false) rfl
  have hbytes : Percent.bytes? (fragment sectionName name).toList =
      some (('/' :: (Pointer.escapeChars sectionName.toList ++
        '/' :: Pointer.escapeChars name.toList)).flatMap String.utf8EncodeChar) := by
    have hname := hencode (Pointer.escapeChars name.toList) []
    simp only [List.append_nil] at hname
    simp only [fragment, Pointer.encode, Percent.encodeSegment, Percent.encode, Pointer.escape,
      String.toList_append, String.toList_ofList, hlist, List.append_assoc, List.cons_append,
      List.nil_append, Percent.bytes?_cons_of_ne hslash, hencode, hname]
    simp [Percent.bytes?]
  rw [Percent.decode?_eq_some hbytes, Option.some.injEq, ← String.toList_inj]
  simp [Pointer.escape]

/-- A link tells what it was written for, except that a document without a name is the one that
the link is in. -/
theorem eq_of_text_eq {document document' : Option String} {sectionName sectionName' name name' :
    String} (h : document ≠ some "") (h' : document' ≠ some "")
    (heq : text document sectionName name = text document' sectionName' name') :
    document = document' ∧ sectionName = sectionName' ∧ name = name' := by
  have hparts := (split?_text document sectionName name).symm.trans
    ((congrArg split? heq).trans (split?_text document' sectionName' name'))
  rw [Option.some.injEq, Prod.mk.injEq] at hparts
  obtain ⟨hdocument, hfragment⟩ := hparts
  have hpointer := (decode?_fragment sectionName name).symm.trans
    ((congrArg Percent.decode? hfragment).trans (decode?_fragment sectionName' name'))
  have hsegments := (Pointer.segments?_escape sectionName name).symm.trans
    ((congrArg Pointer.segments? (Option.some.inj hpointer)).trans
      (Pointer.segments?_escape sectionName' name'))
  simp only [Option.some.injEq, List.cons.injEq, and_true] at hsegments
  exact ⟨eq_of_encoded_eq h h' hdocument, hsegments⟩

end Link

/-! ### What a link leads to -/

/-- The member of a section of a document. -/
def Json.member? (document : Json) (sectionName name : String) : Option Json :=
  ((document.field? sectionName).bind Json.fields?).bind fun fields => Table.find? fields name

/-- The pointer to a member of a section that is there leads to the member, if it is there too. -/
theorem Json.pointed?_of_section {document : Json} {sectionName : String}
    {fields : List (String × Json)} (h : document.field? sectionName = some (.object fields))
    (name : String) :
    document.pointed? ("/" ++ Pointer.escape sectionName ++ "/" ++ Pointer.escape name) =
      Table.find? fields name := by
  cases document <;> simp only [Json.field?, reduceCtorEq] at h
  simp [Json.pointed?, Pointer.segments?_escape, Pointer.follow?_cons, Pointer.step?, h]

theorem Json.pointed?_fragment (document : Json) {sectionName name : String} {member : Json}
    (h : document.member? sectionName name = some member) :
    document.pointed? ("/" ++ Pointer.escape sectionName ++ "/" ++ Pointer.escape name) =
      some member := by
  simp only [Json.member?, Option.bind_eq_some_iff] at h
  obtain ⟨fields, ⟨inner, hs, hf⟩, hm⟩ := h
  cases inner <;> simp only [Json.fields?, Option.some.injEq, reduceCtorEq] at hf
  subst hf
  rw [Json.pointed?_of_section hs, hm]

namespace Document

/-- A document that no other one has the identifier of is found by it. -/
theorem find?_identifier {documents : List Document} {target : Document} (ht : target ∈ documents)
    (h : ∀ d ∈ documents, d.identifier = target.identifier → d = target) :
    documents.find? (fun d => d.identifier == target.identifier) = some target := by
  have hsome : (documents.find? fun d => d.identifier == target.identifier).isSome := by
    rw [List.find?_isSome]
    exact ⟨target, ht, beq_self_eq_true _⟩
  obtain ⟨found, hfound⟩ := Option.isSome_iff_exists.1 hsome
  have heq : found.identifier = target.identifier := by simpa using List.find?_some hfound
  rw [hfound, h found (List.mem_of_find?_eq_some hfound) heq]

/-- The document that the first part of a link names is the one that the link was written for. -/
theorem target?_encodePath {documents : List Document} {document target : Document}
    (hne : target.identifier ≠ "")
    (hfind : documents.find? (fun d => d.identifier == target.identifier) = some target) :
    target? documents document (Percent.encodePath target.identifier) = some target := by
  have hn : Percent.encodePath target.identifier ≠ "" := fun h => hne (Percent.encode_eq_empty h)
  rw [target?, if_neg hn, Percent.encodePath, Percent.decode?_encode rfl]
  exact hfind

/-- What a link in a document leads to, with the document that holds it. -/
def followed? (documents : List Document) (document : Document) (link : String) :
    Option (Document × Json) := do
  let (name, fragment) ← Link.split? link
  let target ← target? documents document name
  let pointer ← Percent.decode? fragment
  let schema ← target.schema.pointed? pointer
  return (target, schema)

theorem linked?_eq (documents : List Document) (document : Document) (link : String) :
    linked? documents document link = (followed? documents document link).map Prod.snd := by
  unfold linked? followed?
  rcases Link.split? link with _ | ⟨name, fragment⟩
  · rfl
  simp only [Option.bind_eq_bind, Option.bind_some]
  rcases target? documents document name with _ | target
  · rfl
  simp only [Option.bind_some]
  rcases Percent.decode? fragment with _ | pointer
  · rfl
  simp only [Option.bind_some]
  rcases target.schema.pointed? pointer with _ | schema <;> rfl

/-- What is followed is a value in a document: in this one, or in one of the others. -/
theorem mem_of_followed? {documents : List Document} {document : Document} {link : String}
    {place : Document × Json} (h : followed? documents document link = some place) :
    (place.1 = document ∨ place.1 ∈ documents) ∧
      ∃ pointer, place.1.schema.pointed? pointer = some place.2 := by
  simp only [followed?, Option.bind_eq_bind, Option.bind_eq_some_iff] at h
  obtain ⟨⟨name, fragment⟩, -, target, ht, pointer, -, schema, hs, hp⟩ := h
  obtain rfl := Option.some.inj hp
  refine ⟨?_, pointer, hs⟩
  unfold target? at ht
  split at ht
  · exact .inl (Option.some.inj ht).symm
  · obtain ⟨identifier, -, hfind⟩ := Option.bind_eq_some_iff.1 ht
    exact .inr (List.mem_of_find?_eq_some hfind)

/-- A link within a document leads to the member that it names. -/
theorem followed?_own {documents : List Document} {document : Document}
    {sectionName name : String} {member : Json}
    (h : document.schema.member? sectionName name = some member) :
    followed? documents document (Link.text none sectionName name) = some (document, member) := by
  simp [followed?, Link.split?_text, Link.decode?_fragment, target?, Json.pointed?_fragment _ h]

/-- A link to another document leads to the member that it names. -/
theorem followed?_other {documents : List Document} (document target : Document)
    {sectionName name : String} {member : Json} (hne : target.identifier ≠ "")
    (hfind : documents.find? (fun d => d.identifier == target.identifier) = some target)
    (h : target.schema.member? sectionName name = some member) :
    followed? documents document (Link.text (some target.identifier) sectionName name) =
      some (target, member) := by
  simp [followed?, Link.split?_text, Link.decode?_fragment, target?_encodePath hne hfind,
    Json.pointed?_fragment _ h]

/-- How a link in a document names the document that it leads to: not at all if it is the same, and
any document by its identifier. -/
inductive IsNamed (document : Document) : Option String → Document → Prop
  | own : IsNamed document none document
  | identified (target : Document) : IsNamed document (some target.identifier) target

/-- The first part of a link leads to the document that it names, if identifiers tell documents
apart. -/
theorem target?_of_isNamed {documents : List Document} {document target : Document}
    {name : Option String} (hdistinct : (documents.map identifier).Nodup)
    (hne : ∀ d ∈ documents, d.identifier ≠ "") (ht : target ∈ documents)
    (h : document.IsNamed name target) :
    target? documents document ((name.map Percent.encodePath).getD "") = some target := by
  cases h with
  | own => exact if_pos rfl
  | identified =>
      refine target?_encodePath (hne _ ht) (find?_identifier ht fun d hd heq => ?_)
      exact List.inj_on_of_nodup_map hdistinct hd ht heq

/-- Links lead to what they were written for. A link for a member of a section leads to that member
of that section of that document, whatever characters the names consist of, and nowhere if there is
no such member; and links that were written for different things are different. -/
theorem linked?_text (documents : List Document) (hdistinct : (documents.map identifier).Nodup)
    (hne : ∀ d ∈ documents, d.identifier ≠ "") :
    (∀ document, ∀ target ∈ documents, ∀ written, document.IsNamed written target →
      ∀ sectionName fields, target.schema.field? sectionName = some (.object fields) →
      ∀ name, linked? documents document (Link.text written sectionName name) =
        Table.find? fields name) ∧
    ∀ written written' : Option String, written ≠ some "" → written' ≠ some "" →
      ∀ sectionName sectionName' name name',
        (written, sectionName, name) ≠ (written', sectionName', name') →
        Link.text written sectionName name ≠ Link.text written' sectionName' name' := by
  refine ⟨fun document target ht written hnamed sectionName fields hsection name => ?_,
    fun written written' h h' sectionName sectionName' name name' hdifferent heq => ?_⟩
  · have htarget := target?_of_isNamed hdistinct hne ht hnamed
    simp [linked?, Link.split?_text, Link.decode?_fragment, htarget,
      Json.pointed?_of_section hsection]
  · obtain ⟨rfl, rfl, rfl⟩ := Link.eq_of_text_eq h h' heq
    exact hdifferent rfl

/-- Two documents one of which has the encoded form of the other's name, with members that have the
marks of links in their names. -/
theorem linked?_text_marked :
    let plain : Document := ⟨"a b.json", "a b.xsd",
      .object [("$defs/~", .object [("%2F#é", .bool true), ("", .bool false)])]⟩
    let encoded : Document := ⟨"a%20b.json", "a%20b.xsd", .object [("$defs/~", .object [])]⟩
    linked? [plain, encoded] encoded (Link.text (some "a b.json") "$defs/~" "%2F#é") =
        some (.bool true) ∧
      linked? [plain, encoded] plain (Link.text none "$defs/~" "") = some (.bool false) ∧
      linked? [plain, encoded] plain (Link.text (some "a%20b.json") "$defs/~" "") = none ∧
      Link.text (some "a b.json") "$defs/~" "" ≠ Link.text (some "a%20b.json") "$defs/~" "" := by
  intro plain encoded
  obtain ⟨hlinked, hdifferent⟩ := linked?_text [plain, encoded] (by decide) (by decide)
  have hp : plain ∈ [plain, encoded] := List.mem_cons_self
  have he : encoded ∈ [plain, encoded] := List.mem_cons_of_mem _ List.mem_cons_self
  refine ⟨?_, ?_, ?_, hdifferent _ _ (by decide) (by decide) _ _ _ _ (by decide)⟩
  · exact (hlinked encoded plain hp _ (.identified plain) _ _ rfl "%2F#é").trans rfl
  · exact (hlinked plain plain hp _ .own _ _ rfl "").trans rfl
  · exact (hlinked plain encoded he _ (.identified encoded) _ _ rfl "").trans rfl

end Document

end Crosswalk
