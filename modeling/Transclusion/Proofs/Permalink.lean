import Mathlib.Data.List.Basic
import Transclusion.Expansion
import Transclusion.Proofs.Directive.Scan
import Transclusion.Proofs.Key
import Transclusion.Proofs.KeyMap
import Transclusion.Proofs.Resolver

/-!
# What a permalink is written out to

* `Permalink.discover_remote` — a URL is no permalink;
* `Permalink.retarget_eq_self` — a text without permalinks stays as it is;
* `Permalink.retarget_eq_of_keys_eq` — of a set only the keys matter;
* `Permalink.discover_eq_some` — which document a permalink is found to denote, and what is written
  for it;
* `Permalink.discover_denotes_iff` — when the text that is written denotes that document.

The document is looked up under the key that the target denotes, but the suffix is written behind
the target as it stands. So the two go apart where the target ends in `.` or `..`: these are
directories, and with the suffix behind them they are names (`Permalink.discover_misses_after_dot`).
-/

namespace Transclusion.Permalink

/-- A URL is no permalink. -/
theorem discover_remote {documents : DocumentSet} {source target : String}
    (h : isRemoteTarget target) : discover documents source target = none := by
  rw [discover, if_pos h]

/-- A text without permalinks stays as it is. -/
theorem retarget_eq_self {documents : DocumentSet} {source content : String}
    (h : ∀ d ∈ directives content, discover documents source d.target = none) :
    retarget documents source content = content := by
  have hparts : (Outline.ofText content).parts.flatMap
      (fun part => part.1 ++ (retargetDirective documents source part.2).toList) =
        (Outline.ofText content).parts.flatMap fun part => part.1 ++ part.2.source.toList := by
    refine List.flatMap_congr fun part hpart => ?_
    rw [retargetDirective, h part.2 (List.mem_map_of_mem hpart)]
  have hchars := Outline.toChars_ofText content
  rw [Outline.toChars] at hchars
  rw [retarget, hparts, hchars, String.ofList_toList]

/-- What a permalink stands for depends on nothing but the keys of the set. -/
theorem discover_eq_of_keys_eq {a b : DocumentSet} (h : a.keys = b.keys) :
    discover a = discover b := by
  funext source target
  simp only [discover, KeyMap.contains_eq_of_keys_eq h]

theorem retarget_eq_of_keys_eq {a b : DocumentSet} (h : a.keys = b.keys) :
    retarget a = retarget b := by
  have hdirective : retargetDirective a = retargetDirective b := by
    funext source d
    simp only [retargetDirective, discover_eq_of_keys_eq h]
  funext source content
  simp only [retarget, hdirective]

/-! ## What is found -/

/-- What a permalink is found to denote: a document with the markdown suffix, or the index document
of a directory. -/
inductive Found (documents : DocumentSet) (joined target : String) : String → String → Prop
  | suffix (hend : target.toList.getLast? ≠ some '/')
      (hmem : documents.contains (joined ++ Key.markdownSuffix)) :
      Found documents joined target (joined ++ Key.markdownSuffix) (target ++ Key.markdownSuffix)
  | index (hmem : documents.contains (indexKey joined)) :
      Found documents joined target (indexKey joined)
        (withoutTrailingSlashes target ++ "/" ++ Key.indexName)

theorem discover_eq_some {documents : DocumentSet} {source target written : String}
    (h : discover documents source target = some written) :
    ¬ isRemoteTarget target ∧ ∃ joined found, Key.join source target = some joined ∧
      ¬ documents.contains joined ∧ Found documents joined target found written := by
  rw [discover] at h
  split at h
  · exact nomatch h
  · next hlocal =>
    split at h
    · exact nomatch h
    · next joined hjoined =>
      split at h
      · exact nomatch h
      · next hmissing =>
        refine ⟨hlocal, joined, ?_⟩
        split at h
        · next hsuffix =>
          cases h
          exact ⟨_, hjoined, hmissing, .suffix hsuffix.1 hsuffix.2⟩
        · split at h
          · next hindex =>
            cases h
            exact ⟨_, hjoined, hmissing, .index hindex⟩
          · exact nomatch h

/-! ## The text that is written -/

/-- A text is what is left of it without trailing slashes, and these slashes. -/
theorem exists_trailing_slashes (target : String) :
    ∃ slashes, (∀ c ∈ slashes, c = '/') ∧
      target.toList = (withoutTrailingSlashes target).toList ++ slashes := by
  refine ⟨(target.toList.reverse.takeWhile (· = '/')).reverse, fun c hc => ?_, ?_⟩
  · exact of_decide_eq_true (List.all_eq_true.mp List.all_takeWhile c (List.mem_reverse.mp hc))
  · rw [withoutTrailingSlashes, String.toList_ofList, ← List.reverse_append,
      List.takeWhile_append_dropWhile, List.reverse_reverse]

theorem getLast?_withoutTrailingSlashes (target : String) :
    (withoutTrailingSlashes target).toList.getLast? ≠ some '/' := by
  rw [withoutTrailingSlashes, String.toList_ofList, List.getLast?_reverse]
  intro hhead
  have hpass := Directive.head?_dropWhile_eq_false (· = '/') target.toList.reverse '/' hhead
  simp at hpass

/-- No URL is written for a target that is none. -/
theorem Found.isLocal {documents : DocumentSet} {joined target found written : String}
    (h : Found documents joined target found written) (hlocal : ¬ isRemoteTarget target) :
    ¬ isRemoteTarget written := by
  intro hremote
  cases h with
  | suffix hend _ =>
    have hwritten : target ++ Key.markdownSuffix =
        String.ofList (target.toList ++ ['.', 'm', 'd']) := by
      rw [String.ofList_append, String.ofList_toList]
      rfl
    rw [hwritten] at hremote
    refine hlocal ?_
    have htarget := Key.isRemoteTarget_of_append (by decide) (fun hslashes => ?_) hremote []
    · simpa using htarget
    · -- the suffix adds no slash, so both stand in the target
      match hcs : target.toList with
      | [] => simp [hcs] at hslashes
      | [c] => simp [hcs] at hslashes
      | c :: d :: cs => simpa [hcs] using hslashes
  | index _ =>
    obtain ⟨slashes, -, htarget⟩ := exists_trailing_slashes target
    have hend := getLast?_withoutTrailingSlashes target
    generalize withoutTrailingSlashes target = front at htarget hend hremote
    have hwritten : front ++ "/" ++ Key.indexName =
        String.ofList (front.toList ++ '/' :: Key.indexName.toList) := by
      rw [String.ofList_append, String.ofList_toList, String.append_assoc]
      rfl
    rw [hwritten] at hremote
    refine hlocal ?_
    have hfront := Key.isRemoteTarget_of_append (by decide) (fun hslashes => ?_) hremote slashes
    · rwa [← htarget, String.ofList_toList] at hfront
    · -- a single slash would stand at the end of what is left of the target
      match hcs : front.toList with
      | [] => simp [hcs, Key.indexName] at hslashes
      | [c] =>
        simp only [hcs] at hslashes hend
        obtain rfl : '/' = c := (List.cons_prefix_cons.mp hslashes).1
        exact absurd rfl hend
      | c :: d :: cs => simpa [hcs] using hslashes

/-! ## Where it leads -/

/-- Trailing slashes lead nowhere. -/
theorem joinChars_append_slashes {source target slashes : List Char} (hne : target ≠ [])
    (hslashes : ∀ c ∈ slashes, c = '/') :
    Key.joinChars source (target ++ slashes) = Key.joinChars source target := by
  cases slashes with
  | nil => rw [List.append_nil]
  | cons c slashes =>
    obtain ⟨rfl, hothers⟩ := List.forall_mem_cons.mp hslashes
    rw [Key.joinChars_append_cons hne]
    cases Key.joinChars source target with
    | none => rfl
    | some directory => exact Key.foldlM_step_slashes hothers directory

/-- What stands behind the last slash of a target. -/
def lastSegment (target : String) : List Char :=
  (Text.fields '/' target.toList).getLastD []

theorem exists_fields_lastSegment (target : String) :
    ∃ front, Text.fields '/' target.toList = front ++ [lastSegment target] := by
  rcases List.eq_nil_or_concat (Text.fields '/' target.toList) with hnil | ⟨front, last, h⟩
  · exact absurd hnil (Text.fields_ne_nil _ _)
  · refine ⟨front, ?_⟩
    simp [lastSegment, h]

/-- A target that does not end in a slash ends in a segment. -/
theorem lastSegment_ne_nil {target : String} (hne : target ≠ "")
    (hend : target.toList.getLast? ≠ some '/') : lastSegment target ≠ [] := by
  intro hnil
  obtain ⟨front, hfields⟩ := exists_fields_lastSegment target
  have htarget := Text.unite_fields '/' target.toList
  rw [hfields, hnil] at htarget
  cases front with
  | nil =>
    have hempty : target.toList = [] := htarget.symm
    exact hne (by simpa using hempty)
  | cons part front =>
    rw [Text.unite_append _ (List.cons_ne_nil _ _) (List.cons_ne_nil _ _)] at htarget
    exact hend (by simp [← htarget, Text.unite])

theorem joinChars_append_suffix {source target last : List Char} {front : List (List Char)}
    (hne : target ≠ []) (hfields : Text.fields '/' target = front ++ [last])
    {segments : List (List Char)} (h : Key.joinChars source target = some segments) :
    ∃ directory, Key.step directory last = some segments ∧
      Key.joinChars source (target ++ Key.markdownSuffix.toList) =
        some (directory ++ [last ++ Key.markdownSuffix.toList]) := by
  rw [Key.joinChars_eq, hfields, List.foldlM_append] at h
  obtain ⟨directory, hdirectory, hlast⟩ := Option.bind_eq_some_iff.mp h
  have hstep : Key.step directory last = some segments := by simpa using hlast
  have hmem : last ∈ Text.fields '/' target := by simp [hfields]
  have hslash : '/' ∉ last := Text.not_mem_of_mem_fields hmem
  refine ⟨directory, hstep, ?_⟩
  rw [Key.joinChars_eq, Text.fields_append hfields (by decide), List.foldlM_append,
    Key.origin_append hne, hdirectory]
  show List.foldlM Key.step directory [last ++ Key.markdownSuffix.toList] = _
  rw [List.foldlM_cons, Key.step_name (Key.isName_append_suffix hslash)]
  rfl

theorem length_unite_dropLast (sep : List Char) (parts : List (List Char)) :
    (Text.unite sep parts.dropLast).length ≤ (Text.unite sep parts).length := by
  rcases List.eq_nil_or_concat parts with rfl | ⟨front, last, rfl⟩
  · simp
  · have hlength := Text.length_unite_concat sep front last
    simp only [List.concat_eq_append, List.dropLast_concat]
    omega

/-- The suffix behind a target leads to the document with the suffix exactly if the target ends in a
name. Behind `.` or `..` it makes a name of what was a directory, one level further down. -/
theorem join_append_suffix_iff {source target joined : String} (hne : target ≠ "")
    (hend : target.toList.getLast? ≠ some '/') (hjoin : Key.join source target = some joined) :
    Key.join source (target ++ Key.markdownSuffix) = some (joined ++ Key.markdownSuffix) ↔
      Key.IsName (lastSegment target) := by
  have hchars : target.toList ≠ [] := by simpa using hne
  have hlast := lastSegment_ne_nil hne hend
  obtain ⟨front, hfields⟩ := exists_fields_lastSegment target
  obtain ⟨segments, hsegments, rfl⟩ := Option.map_eq_some_iff.mp hjoin
  obtain ⟨directory, hstep, hsuffix⟩ := joinChars_append_suffix hchars hfields hsegments
  generalize lastSegment target = last at *
  rw [Key.join, String.toList_append, hsuffix, Option.map_some, Option.some.injEq,
    ← String.toList_inj, String.toList_append, String.toList_ofList, String.toList_ofList]
  constructor
  · intro heq
    have hmem : last ∈ Text.fields '/' target.toList := by simp [hfields]
    have hslash : '/' ∉ last := Text.not_mem_of_mem_fields hmem
    have hlonger := Text.length_unite_concat ['/'] directory (last ++ Key.markdownSuffix.toList)
    rw [heq, List.length_append, List.length_append] at hlonger
    -- a walk that does not enter the last segment gets to a text that is too short
    have hstay : directory ≠ segments := by
      rintro rfl
      have := List.length_pos_of_ne_nil hlast
      omega
    have hup : directory.dropLast ≠ segments := by
      rintro rfl
      have := List.length_pos_of_ne_nil hlast
      have := length_unite_dropLast ['/'] directory
      omega
    refine ⟨hlast, ?_, ?_, hslash⟩
    · rintro rfl
      exact hstay (by simpa [Key.step] using hstep)
    · rintro rfl
      exact hup (And.right (by simpa [Key.step] using hstep))
  · intro hname
    rw [Key.step_name hname] at hstep
    cases hstep
    rw [← Text.unite_concat_append]

/-- The key of an index document is one segment longer than its directory. -/
theorem indexKey_unite {segments : List (List Char)} (h : ∀ s ∈ segments, s ≠ []) :
    indexKey (String.ofList (Text.unite ['/'] segments)) =
      String.ofList (Text.unite ['/'] (segments ++ [Key.indexName.toList])) := by
  rcases List.eq_nil_or_concat segments with rfl | ⟨front, last, rfl⟩
  · rfl
  · have hlast := List.length_pos_of_ne_nil (h last (by simp))
    have hlength := Text.length_unite_concat ['/'] front last
    have hunite : Text.unite ['/'] (front ++ [last] ++ [Key.indexName.toList]) =
        Text.unite ['/'] (front ++ [last]) ++ ['/'] ++ Key.indexName.toList :=
      Text.unite_append _ (by simp) (List.cons_ne_nil _ _)
    rw [List.concat_eq_append, hunite]
    generalize Text.unite ['/'] (front ++ [last]) = directory at hlength ⊢
    have hne : directory ≠ [] := List.ne_nil_of_length_pos (by omega)
    rw [indexKey, if_neg (by simpa using hne), String.ofList_append, String.ofList_append]
    rfl

/-- The name of the index document behind a target leads to the index document of the directory. -/
theorem join_index {source target joined : String} (hne : target ≠ "")
    (hjoin : Key.join source target = some joined) :
    Key.join source (withoutTrailingSlashes target ++ "/" ++ Key.indexName) =
      some (indexKey joined) := by
  obtain ⟨slashes, hslashes, htarget⟩ := exists_trailing_slashes target
  generalize withoutTrailingSlashes target = front at htarget ⊢
  obtain ⟨segments, hsegments, rfl⟩ := Option.map_eq_some_iff.mp hjoin
  have hwritten : (front ++ "/" ++ Key.indexName).toList =
      front.toList ++ '/' :: Key.indexName.toList := by
    simp
  have hwalk : (Text.fields '/' front.toList).foldlM Key.step
      (Key.origin source.toList (front.toList ++ '/' :: Key.indexName.toList)).1 =
        some segments := by
    match hcs : front.toList with
    | [] =>
      -- a target of nothing but slashes leads to the root, and so does what is written for it
      rw [hcs, List.nil_append] at htarget
      obtain ⟨c, rest, hcons⟩ : ∃ c rest, slashes = c :: rest :=
        List.exists_cons_of_ne_nil fun hnil => hne (by simpa [hnil] using htarget)
      obtain rfl : c = '/' := hslashes c (by simp [hcons])
      rw [Key.joinChars_eq, htarget, Key.foldlM_step_slashes hslashes, hcons] at hsegments
      exact hsegments
    | c :: cs =>
      rw [htarget, hcs, joinChars_append_slashes (List.cons_ne_nil c cs) hslashes,
        Key.joinChars_eq] at hsegments
      rw [← hsegments]
      by_cases hc : c = '/' <;> simp [Key.origin, hc]
  have hname : Key.IsName Key.indexName.toList := by decide
  have hindex : Text.fields '/' Key.indexName.toList = [Key.indexName.toList] :=
    Text.fields_of_not_mem hname.2.2.2
  have hchars : Key.joinChars source.toList (front.toList ++ '/' :: Key.indexName.toList) =
      some (segments ++ [Key.indexName.toList]) := by
    rw [Key.joinChars_eq, Text.fields_append_cons, List.foldlM_append, hwalk, hindex]
    exact Key.foldlM_step_names (by simpa using hname) segments
  rw [Key.join, hwritten, hchars, Option.map_some,
    indexKey_unite fun s hs => (Key.segments_of_joinChars hsegments s hs).1]

/-! ## What it denotes -/

/-- A target in the document at `source` denotes the document at a key: the walk leads there, and so
the document is found by its exact key. -/
structure Denotes (documents : DocumentSet) (source target key : String) : Prop where
  join : Key.join source target = some key
  resolves : ∃ document, documents.get? key = some document ∧
    ∀ extract label secondary,
      Resolver.resolveExact documents extract ⟨target, label, secondary, source⟩ =
        (document.fragment extract source key).map fun f => some ⟨"exact", [f]⟩

theorem Denotes.of_join {documents : DocumentSet} {source target key : String}
    (hlocal : ¬ isRemoteTarget target) (hjoin : Key.join source target = some key) (hne : key ≠ "")
    (hmem : documents.contains key) : Denotes documents source target key := by
  obtain ⟨document, hdocument⟩ := KeyMap.mem_keys_iff.mp (KeyMap.contains_iff.mp hmem)
  refine ⟨hjoin, document, hdocument, fun extract label secondary => ?_⟩
  refine Resolver.resolveExact_of_localKey? ?_ hdocument
  simp [Reference.localKey?, Reference.isRemote, Reference.joined?, hlocal, hjoin, hne]

theorem Found.contains {documents : DocumentSet} {joined target found written : String}
    (h : Found documents joined target found written) : documents.contains found := by
  cases h with
  | suffix _ hmem => exact hmem
  | index hmem => exact hmem

theorem Found.ne_empty {documents : DocumentSet} {joined target found written : String}
    (h : Found documents joined target found written) : found ≠ "" := by
  cases h with
  | suffix => simp [Key.markdownSuffix]
  | index =>
    rw [indexKey]
    split <;> simp [Key.indexName]

/-- The key of an index document is longer than that of a document with the suffix. -/
theorem indexKey_ne_append_suffix (joined : String) :
    indexKey joined ≠ joined ++ Key.markdownSuffix := by
  intro heq
  have hlength := congrArg String.length heq
  rw [indexKey] at hlength
  split at hlength
  · next hroot =>
    subst hroot
    exact absurd hlength (by decide)
  · rw [String.length_append, String.length_append, String.length_append, Nat.add_assoc,
      Nat.add_left_cancel_iff] at hlength
    exact absurd hlength (by decide)

/-- What is written for the permalink of a directive is no URL, and it denotes the document that was
found, unless that is one with the suffix and the target ends in `.` or `..`. -/
theorem discover_denotes_iff {documents : DocumentSet} {source content : String} {d : Directive}
    (hd : d ∈ directives content) {written : String}
    (h : discover documents source d.target = some written) :
    ¬ isRemoteTarget written ∧
    ∃ joined found, Key.join source d.target = some joined ∧
      Found documents joined d.target found written ∧ documents.contains found ∧
      (Denotes documents source written found ↔
        (found = joined ++ Key.markdownSuffix → Key.IsName (lastSegment d.target))) := by
  obtain ⟨hlocal, joined, found, hjoin, -, hfound⟩ := discover_eq_some h
  have hne := target_ne_empty_of_mem_directives hd
  have hwritten := hfound.isLocal hlocal
  refine ⟨hwritten, joined, found, hjoin, hfound, hfound.contains, ?_⟩
  have hdenotes : Denotes documents source written found ↔ Key.join source written = some found :=
    ⟨Denotes.join, fun hjoins => .of_join hwritten hjoins hfound.ne_empty hfound.contains⟩
  rw [hdenotes]
  cases hfound with
  | suffix hend _ =>
    rw [join_append_suffix_iff hne hend hjoin]
    simp
  | index _ =>
    -- an index document is always denoted, and the condition does not apply
    rw [join_index hne hjoin]
    simp [indexKey_ne_append_suffix]

/-- A target with a step that stays where it is and trailing slashes. -/
theorem discover_denotes_iff_index :
    let documents : DocumentSet := .ofList
      [("a/x.md", ⟨":[p](./../b// \"q\")", .empty⟩), ("b.md", ⟨"B", .empty⟩), ("b/index.md", ⟨"I", .empty⟩)]
    ∃ d ∈ directives ":[p](./../b// \"q\")", d.target = "./../b//" ∧
      discover documents "a/x.md" d.target = some "./../b/index.md" ∧
      ¬ isRemoteTarget "./../b/index.md" ∧
      ∃ joined found, Key.join "a/x.md" d.target = some joined ∧
        Found documents joined d.target found "./../b/index.md" ∧ documents.contains found ∧
        (Denotes documents "a/x.md" "./../b/index.md" found ↔
          (found = joined ++ Key.markdownSuffix → Key.IsName (lastSegment d.target))) := by
  intro documents
  let d : Directive := ⟨"p", "./../b//", some "q", ":[p](./../b// \"q\")"⟩
  have hd : d ∈ directives ":[p](./../b// \"q\")" := by decide +kernel
  have h : discover documents "a/x.md" d.target = some "./../b/index.md" := by decide +kernel
  exact ⟨d, hd, rfl, h, discover_denotes_iff hd h⟩

/-- A directory that is named by a point, next to a document of its name. The document is what the
point denotes, but behind the point the suffix makes another name. -/
theorem discover_misses_after_dot :
    let documents : DocumentSet := .ofList [("a.md", ⟨"A", .empty⟩), ("a/x.md", ⟨":[](.)", .empty⟩)]
    let engine (permalink : Bool) : Engine :=
      ⟨default, documents, [.exact false], ⟨false, false, permalink⟩⟩
    (∀ key ∈ documents.keys, Key.Normalized key) ∧
    discover documents "a/x.md" "." = some "..md" ∧
    Key.join "a/x.md" "." = some "a" ∧ documents.contains "a.md" ∧
    Key.join "a/x.md" "..md" = some "a/..md" ∧ ¬ documents.contains "a/..md" ∧
    retarget documents "a/x.md" ":[](.)" = ":[](..md)" ∧
    ((engine false).expandDocument "a/x.md").map (·.map Expansion.content) = .ok (some "A") ∧
    (engine true).expandDocument "a/x.md" =
      .error (.error (.unresolvedTarget "a/x.md" "..md")) := by
  decide +kernel

end Transclusion.Permalink
