import Transclusion.FrontMatter
import Transclusion.MetadataTree
import Transclusion.Proofs.Results
import Transclusion.Proofs.Text.Cut

/-!
# Front matter and the text behind it

Splitting a text off its front matter, and writing metadata in front of a body, keep the end of the
text as it is.

* `FrontMatter.body_suffix_of_parse` — a body is an end of the text it was split off;
* `FrontMatter.distinct_of_parse` — the metadata that are split off have distinct keys;
* `FrontMatter.suffix_serialize` — a body is an end of the text it is written into;
* `FrontMatter.split?_serialize` — what is written in front of a body is split off again;
* `FrontMatter.ReadsBack`, `FrontMatter.parse_serialize` — and is read as what was written;
* `FrontMatter.parse_serialize_iff` — exactly if the header reads back as it stands in the text;
* `MetadataTree.attachToContent_eq_ok` — metadata laid into a content change nothing but its front
  matter.
-/

namespace Transclusion

namespace FrontMatter

theorem suffix_afterLine (cs : List Char) : afterLine cs <:+ cs :=
  List.dropWhile_suffix _

theorem suffix_of_splitHeader? {cs header body : List Char}
    (h : splitHeader? cs = some (header, body)) : body <:+ cs := by
  fun_induction splitHeader? cs generalizing header body with
  | case1 cs hclosing =>
    cases h
    exact (List.drop_suffix 1 _).trans (suffix_afterLine cs)
  | case2 cs hclosing hrest => exact nomatch h
  | case3 cs hclosing newline rest hrest ih =>
    obtain ⟨⟨header', body'⟩, hsplit, heq⟩ := Option.map_eq_some_iff.mp h
    cases heq
    have hcs : newline :: rest <:+ cs := hrest ▸ suffix_afterLine cs
    exact (ih hsplit).trans ((List.suffix_cons newline rest).trans hcs)

theorem suffix_of_split? {cs header body : List Char} (h : split? cs = some (header, body)) :
    body <:+ cs := by
  rw [split?] at h
  split at h
  · cases h
  · next newline rest hrest =>
    split at h
    · have hcs : newline :: rest <:+ cs := hrest ▸ suffix_afterLine cs
      exact (suffix_of_splitHeader? h).trans ((List.suffix_cons newline rest).trans hcs)
    · cases h

/-- A body is an end of the text it was split off. -/
theorem body_suffix_of_parse {text : String} {parsed : Parsed} (h : parse text = .ok parsed) :
    parsed.body.toList <:+ text.toList := by
  rw [parse] at h
  split at h
  · cases h
    exact List.suffix_refl _
  · next header body hsplit =>
    obtain ⟨metadata, -, rfl⟩ := map_eq_ok.mp h
    rw [String.toList_ofList]
    exact suffix_of_split? hsplit

/-- A body is an end of the text it is written into. -/
theorem suffix_serialize (body : String) (metadata : Metadata) :
    body.toList <:+ (serialize body metadata).toList := by
  rw [serialize]
  split
  · exact List.suffix_refl _
  · exact ⟨("---\n" ++ withNewline (Yaml.write metadata) ++ "---\n").toList, by
      rw [← String.toList_append]⟩

/-! ## Reading back -/

/-- A line ends before its newline. -/
theorem line_append {cs : List Char} (h : '\n' ∉ cs) (rest : List Char) :
    line (cs ++ '\n' :: rest) = cs ∧ afterLine (cs ++ '\n' :: rest) = '\n' :: rest := by
  rw [line, afterLine, List.takeWhile_append_of_pos (Text.ne_newline h),
    List.dropWhile_append_of_pos (Text.ne_newline h)]
  simp

theorem line_of_not_mem {cs : List Char} (h : '\n' ∉ cs) : line cs = cs ∧ afterLine cs = [] :=
  ⟨List.takeWhile_eq_self_iff.mpr (Text.ne_newline h),
    List.dropWhile_eq_nil_iff.mpr (Text.ne_newline h)⟩

/-- A line either closes the header or belongs to it. -/
theorem splitHeader?_append {cs : List Char} (h : '\n' ∉ cs) (rest : List Char) :
    splitHeader? (cs ++ '\n' :: rest) =
      if isClosing cs then some ([], rest)
      else (splitHeader? rest).map fun (header, body) => (cs ++ '\n' :: header, body) := by
  obtain ⟨hline, hafter⟩ := line_append h rest
  rw [splitHeader?, hline]
  split
  · rw [hafter]
    rfl
  · split
    · next hnil => simp [hafter] at hnil
    · next newline rest' hrest =>
      rw [hafter] at hrest
      obtain ⟨rfl, rfl⟩ := List.cons.inj hrest
      rfl

/-- The last line of a text can only close the header. -/
theorem splitHeader?_of_not_mem {cs : List Char} (h : '\n' ∉ cs) :
    splitHeader? cs = if isClosing cs then some ([], []) else none := by
  obtain ⟨hline, hafter⟩ := line_of_not_mem h
  rw [splitHeader?, hline]
  split
  · rw [hafter]
    rfl
  · split
    · rfl
    · next hrest => simp [hafter] at hrest

/-- The lines before the first closing line belong to the header. -/
theorem splitHeader?_lines {lines : List (List Char)}
    (hlines : ∀ cs ∈ lines, '\n' ∉ cs ∧ ¬ isClosing cs) (rest : List Char) :
    splitHeader? (lines.flatMap (· ++ ['\n']) ++ rest) =
      (splitHeader? rest).map fun (header, body) =>
        (lines.flatMap (· ++ ['\n']) ++ header, body) := by
  induction lines with
  | nil => simp
  | cons cs lines ih =>
    obtain ⟨⟨hcs, hopen⟩, hothers⟩ := List.forall_mem_cons.mp hlines
    rw [List.flatMap_cons, List.append_assoc, List.append_assoc, List.singleton_append,
      splitHeader?_append hcs, if_neg hopen, ih hothers, Option.map_map]
    simp [Function.comp_def]

theorem toList_withNewline (text : String) :
    ∃ cs, (withNewline text).toList = cs ++ ['\n'] ∧ text.toList ⊆ cs ++ ['\n'] := by
  rw [withNewline]
  split
  · next hlast =>
    obtain ⟨cs, hcs⟩ := List.getLast?_eq_some_iff.mp hlast
    exact ⟨cs, hcs, by rw [hcs]; exact List.Subset.refl _⟩
  · exact ⟨text.toList, by simp, List.subset_append_left _ _⟩

/-- A header with metadata holds a colon. -/
theorem colon_mem_write {metadata : Metadata} (h : metadata ≠ .empty) :
    ':' ∈ (Yaml.write metadata).toList := by
  have hne : metadata.fields ≠ [] := mt Metadata.fields_eq_nil.mp h
  obtain ⟨⟨key, value⟩, rest, hfields⟩ := List.exists_cons_of_ne_nil hne
  rw [Yaml.write, if_neg hne, hfields, String.toList_ofList, Yaml.writeEntries]
  by_cases hsimple : Yaml.isSimpleKey key <;> simp [hsimple]

/-- No line of a text closes a header. -/
def LeavesOpen (text : String) : Prop :=
  ∀ cs ∈ Text.fields '\n' text.toList, ¬ isClosing cs

instance (text : String) : Decidable (LeavesOpen text) :=
  inferInstanceAs (Decidable (∀ cs ∈ Text.fields '\n' text.toList, ¬ isClosing cs))

/-- The newline that is put at the end of a text begins an empty line, which closes nothing. -/
theorem LeavesOpen.withNewline {text : String} (h : LeavesOpen text) :
    LeavesOpen (withNewline text) := by
  rw [FrontMatter.withNewline]
  split
  · exact h
  · intro cs hcs
    rw [String.toList_append] at hcs
    have hlines : Text.fields '\n' (text.toList ++ "\n".toList) =
        Text.fields '\n' text.toList ++ [[]] := Text.fields_append_cons '\n' text.toList []
    rw [hlines] at hcs
    rcases List.mem_append.mp hcs with hcs | hcs
    · exact h cs hcs
    · obtain rfl := List.mem_singleton.mp hcs
      decide

/-- What is written in front of a body is split off behind it again, if none of its lines closes the
header before. -/
theorem split?_serialize {metadata : Metadata} (hne : metadata ≠ .empty)
    (hopen : LeavesOpen (withNewline (Yaml.write metadata))) (body : String) :
    split? (serialize body metadata).toList =
      some ((withNewline (Yaml.write metadata)).toList, body.toList) := by
  obtain ⟨cs, hheader, -⟩ := toList_withNewline (Yaml.write metadata)
  -- the header consists of the lines of the text before its last newline
  have hlines : (Text.fields '\n' cs).flatMap (· ++ ['\n']) = cs ++ ['\n'] := by
    rw [Text.flatMap_append_sep _ (Text.fields_ne_nil _ _), Text.unite_fields]
  have hparts : ∀ part ∈ Text.fields '\n' cs, '\n' ∉ part ∧ ¬ isClosing part := by
    intro part hpart
    refine ⟨Text.not_mem_of_mem_fields hpart, hopen part ?_⟩
    rw [hheader, Text.fields_append_cons]
    exact List.mem_append_left _ hpart
  have hchars : (serialize body metadata).toList =
      ['-', '-', '-'] ++ '\n' ::
        ((Text.fields '\n' cs).flatMap (· ++ ['\n']) ++
          (['-', '-', '-'] ++ '\n' :: body.toList)) := by
    rw [serialize, if_neg hne, hlines, ← hheader]
    simp
  rw [hchars, split?]
  show (if isOpening ['-', '-', '-'] then splitHeader? _ else none) = _
  rw [if_pos (by decide), splitHeader?_lines hparts, splitHeader?_append (by decide),
    if_pos (by decide), hlines, hheader]
  simp

/-- A body with metadata in front of it is taken apart into the body and what the header reads
as. -/
theorem parse_serialize_eq {metadata : Metadata} (hne : metadata ≠ .empty)
    (hopen : LeavesOpen (withNewline (Yaml.write metadata))) (body : String) :
    parse (serialize body metadata) =
      (readHeader (withNewline (Yaml.write metadata)).toList).map fun read => ⟨body, read⟩ := by
  rw [parse, split?_serialize hne hopen]
  dsimp only
  rw [String.ofList_toList]

/-- A header that is not blank has the metadata that its YAML text denotes. -/
theorem readHeader_eq_ok_iff {header : List Char} (hblank : ¬ header.all Text.isBlank)
    {read : Metadata} (hne : read ≠ .empty) :
    readHeader header = .ok read ↔ Yaml.read (String.ofList header) = .ok (.map read) := by
  rw [readHeader, if_neg hblank]
  split
  · next error herror => rw [herror]; exact iff_of_false nofun nofun
  · next entries hentries =>
    rw [Except.ok.injEq, Metadata.ext_iff]
    dsimp only
    rw [hentries, Except.ok.injEq, Value.map.injEq]
  · next hnull =>
    rw [hnull]
    exact iff_of_false (fun heq => hne (Except.ok.inj heq).symm) nofun
  · next value hmap _ hvalue =>
    rw [hvalue]
    exact iff_of_false nofun fun heq => hmap read (Except.ok.inj heq)

/-- A header with metadata is read as YAML, since it is not blank. -/
theorem readHeader_write {metadata : Metadata} (hne : metadata ≠ .empty) {read : Metadata}
    (hread : read ≠ .empty) :
    readHeader (withNewline (Yaml.write metadata)).toList = .ok read ↔
      Yaml.read (withNewline (Yaml.write metadata)) = .ok (.map read) := by
  obtain ⟨cs, hheader, hsub⟩ := toList_withNewline (Yaml.write metadata)
  have hblank : ¬ (withNewline (Yaml.write metadata)).toList.all Text.isBlank := by
    rw [List.all_eq_true]
    intro hall
    exact absurd (hall ':' (hheader ▸ hsub (colon_mem_write hne))) (by decide)
  rw [readHeader_eq_ok_iff hblank hread, String.ofList_toList]

/-- What comes back is what was written exactly if the header reads as it. -/
theorem parse_serialize_eq_ok_iff {metadata : Metadata} (hne : metadata ≠ .empty)
    (hopen : LeavesOpen (Yaml.write metadata)) (body : String) :
    parse (serialize body metadata) = .ok ⟨body, metadata⟩ ↔
      Yaml.read (withNewline (Yaml.write metadata)) = .ok (.map metadata) := by
  rw [parse_serialize_eq hne hopen.withNewline, ← readHeader_write hne hne, map_eq_ok]
  constructor
  · intro h
    obtain ⟨read, hread, heq⟩ := h
    rw [hread, (Parsed.mk.inj heq).2]
  · intro hread
    exact ⟨metadata, hread, rfl⟩

/-- Metadata that are read back from the header they are written into, no line of which closes it.
-/
structure ReadsBack (metadata : Metadata) : Prop where
  read : Yaml.read (withNewline (Yaml.write metadata)) = .ok (.map metadata)
  no_closing : ∀ cs ∈ Text.fields '\n' (withNewline (Yaml.write metadata)).toList, ¬ isClosing cs

/-- A body with metadata in front of it is taken apart into both. -/
theorem parse_serialize {metadata : Metadata} (hne : metadata ≠ .empty) (h : ReadsBack metadata)
    (body : String) : parse (serialize body metadata) = .ok ⟨body, metadata⟩ := by
  rw [parse_serialize_eq hne h.no_closing, (readHeader_write hne hne).mpr h.read]
  rfl

/-- A body with metadata in front of it is taken apart into both exactly if the header reads as the
metadata as it stands there, with the newline at its end. What is taken for the body is the body in
any case. -/
theorem parse_serialize_iff {metadata : Metadata} (hne : metadata ≠ .empty)
    (hopen : LeavesOpen (Yaml.write metadata)) (body : String) :
    (parse (serialize body metadata) = .ok ⟨body, metadata⟩ ↔
      Yaml.read (withNewline (Yaml.write metadata)) = .ok (.map metadata)) ∧
    ∀ parsed, parse (serialize body metadata) = .ok parsed → parsed.body = body := by
  refine ⟨parse_serialize_eq_ok_iff hne hopen body, fun parsed hparsed => ?_⟩
  rw [parse_serialize_eq hne hopen.withNewline] at hparsed
  obtain ⟨read, -, rfl⟩ := map_eq_ok.mp hparsed
  rfl

/-- A body that opens with a block of its own, with lines that end in carriage returns, other marks
and no newline at its end. -/
theorem parse_serialize_iff_own_block :
    let metadata : Metadata :=
      ⟨[("---", .str "---\n..."), ("a", .map [("b", .list [.null, .int 1])])], by decide⟩
    let body := "---\na: 1\r\n--- \r\n...\nB\n---"
    metadata ≠ .empty ∧ LeavesOpen (Yaml.write metadata) ∧
    Yaml.read (withNewline (Yaml.write metadata)) = .ok (.map metadata) ∧
    parse (serialize body metadata) = .ok ⟨body, metadata⟩ := by
  intro metadata body
  have hne : metadata ≠ .empty := by decide
  have hopen : LeavesOpen (Yaml.write metadata) := by decide +kernel
  have hread : Yaml.read (withNewline (Yaml.write metadata)) = .ok (.map metadata) := by
    decide +kernel
  exact ⟨hne, hopen, hread, (parse_serialize_iff hne hopen body).1.mpr hread⟩

/-- A text that is written as a literal block and ends in a line separator. It reads back from its
YAML text, but not with the newline that is put behind it, which is a break more. -/
theorem parse_serialize_ne :
    let metadata : Metadata := ⟨[("k", .str "a\n\u2028")], by decide⟩
    metadata ≠ .empty ∧ ¬ (Yaml.write metadata).toList.all Text.isBlank ∧
    Yaml.read (Yaml.write metadata) = .ok (.map metadata) ∧ LeavesOpen (Yaml.write metadata) ∧
    serialize "B" metadata = "---\nk: |+\n  a\n\u2028\n---\nB" ∧
    parse (serialize "B" metadata) = .ok ⟨"B", [("k", .str "a\n\u2028\n")], by decide⟩ := by
  decide +kernel

end FrontMatter

/-- Metadata laid into a content change nothing but its front matter. -/
theorem MetadataTree.attachToContent_eq_ok {tree : MetadataTree}
    {reserved document content content' : String}
    (h : tree.attachToContent reserved document content = .ok content') :
    content' = content ∨ ∃ parsed metadata, FrontMatter.parse content = .ok parsed ∧
      content' = FrontMatter.serialize parsed.body metadata := by
  rw [attachToContent] at h
  split at h
  · cases h
    exact .inl rfl
  · split at h
    · exact nomatch h
    · next parsed hparsed =>
      obtain ⟨metadata, -, h⟩ := bind_eq_ok.mp h
      cases h
      exact .inr ⟨parsed, metadata, hparsed, rfl⟩

end Transclusion
