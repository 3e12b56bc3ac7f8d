import Heddle.Git.Commit
import Heddle.Lib.TextLines

namespace Heddle
open Heddle.Lib List

section Block
variable {lines : List Bytes} {line : Bytes}

def IsHeaderLine (line : Bytes) : Prop := line ≠ [] ∧ 10 ∉ line

theorem windowPosition_skip (hline : 10 ∉ line) (text : Bytes) :
    windowPosition [10, 10] (line ++ text) =
      (windowPosition [10, 10] text).map (· + line.length) := by
  induction line with
  | nil => simp
  | cons b line ih =>
    have hb : (10 : UInt8) ≠ b := fun h => hline (h ▸ mem_cons_self)
    have hnot : ¬ [10, 10].isPrefixOf (b :: (line ++ text)) = true := by simp [hb]
    rw [cons_append, windowPosition, if_neg hnot,
      ih fun h => hline (mem_cons_of_mem b h), Option.map_map]
    rfl

section
variable (hne : lines ≠ []) (hlines : ∀ line ∈ lines, IsHeaderLine line) (rest : Bytes)
include hne hlines

theorem windowPosition_lines : windowPosition [10, 10] (unlines 10 lines ++ 10 :: rest) =
      some ([10].intercalate lines).length := by
  induction lines with
  | nil => exact absurd rfl hne
  | cons line lines ih =>
    have hline := hlines line mem_cons_self
    rw [unlines_cons, append_assoc, cons_append, windowPosition_skip hline.2]
    cases lines with
    | nil => simp [windowPosition]
    | cons next lines =>
      have hnext := hlines next (mem_cons_of_mem _ mem_cons_self)
      have hnot : ¬ [10, 10].isPrefixOf (10 :: (unlines 10 (next :: lines) ++ 10 :: rest)) = true := by
        cases next with
        | nil => exact absurd rfl hnext.1
        | cons b next =>
          have hb : (10 : UInt8) ≠ b := fun h => hnext.2 (h ▸ mem_cons_self)
          simp [hb]
      rw [windowPosition, if_neg hnot, ih (cons_ne_nil _ _)
        fun l hl => hlines l (mem_cons_of_mem _ hl)]
      simp
      omega

theorem headerBlock_lines : headerBlock (unlines 10 lines ++ 10 :: rest) = [10].intercalate lines := by
  have hposition := windowPosition_lines hne hlines rest
  rw [unlines_eq_intercalate hne] at hposition ⊢
  have hlong : ¬ ([10, 10] = ([] : Bytes) ∨
      ([10].intercalate lines ++ [10] ++ 10 :: rest).length < [(10 : UInt8), 10].length) := by
    simp
    omega
  rw [headerBlock, findSubslice, if_neg hlong, hposition, append_assoc]
  exact take_left

theorem parseCommitExtensionHeaders_lines :
    parseCommitExtensionHeaders (unlines 10 lines ++ 10 :: rest) =
      extensionHeaders (lines.foldl readHeaderLine []) := by
  rw [parseCommitExtensionHeaders, headerBlock_lines hne hlines,
    splitOn_intercalate 10 (fun line hline => (hlines line hline).2) hne]

end

end Block

section Reading
variable {headers : List (Bytes × Bytes)} {lines : List Bytes}

def IsContinuation (line : Bytes) : Prop := line.head? = some 32

theorem readHeaderLine_start (hline : ¬ IsContinuation line) :
    readHeaderLine headers line = headers ++ [splitHeaderLine line] := by
  unfold readHeaderLine
  split
  · exact absurd rfl hline
  · rfl

theorem readHeaderLine_continuation (name value continuation : Bytes) :
    readHeaderLine (headers ++ [(name, value)]) (32 :: continuation) =
      headers ++ [(name, value ++ 10 :: continuation)] := by
  rw [readHeaderLine, appendToLast, getLast?_concat, dropLast_concat]

theorem continuation_cases (line : Bytes) :
    (∃ continuation, line = 32 :: continuation) ∨ ¬ IsContinuation line := by
  rcases line with _ | ⟨b, line⟩
  · exact .inr nofun
  · by_cases hb : b = 32
    · exact .inl ⟨line, hb ▸ rfl⟩
    · exact .inr fun h => hb (Option.some.inj h)

theorem foldl_readHeaderLine_append (cur : List (Bytes × Bytes)) (hcur : cur ≠ []) :
    lines.foldl readHeaderLine (headers ++ cur) = headers ++ lines.foldl readHeaderLine cur := by
  induction lines generalizing cur with
  | nil => rfl
  | cons line lines ih =>
    rw [foldl_cons, foldl_cons]
    rcases continuation_cases line with ⟨continuation, rfl⟩ | hline
    · obtain ⟨below, ⟨name, value⟩, rfl⟩ := (eq_nil_or_concat' cur).resolve_left hcur
      rw [← append_assoc, readHeaderLine_continuation, readHeaderLine_continuation,
        append_assoc]
      exact ih _ (append_ne_nil_of_right_ne_nil _ (cons_ne_nil _ _))
    · rw [readHeaderLine_start hline, readHeaderLine_start hline, append_assoc]
      exact ih _ (append_ne_nil_of_right_ne_nil _ (cons_ne_nil _ _))

theorem foldl_readHeaderLine_below (name value : Bytes) : ∃ value',
    lines.foldl readHeaderLine (headers ++ [(name, value)]) =
      headers ++ (name, value') :: lines.foldl readHeaderLine [] := by
  induction lines generalizing value with
  | nil => exact ⟨value, rfl⟩
  | cons line lines ih =>
    rw [foldl_cons, foldl_cons]
    rcases continuation_cases line with ⟨continuation, rfl⟩ | hline
    · rw [readHeaderLine_continuation]
      exact ih _
    · rw [readHeaderLine_start hline, readHeaderLine_start hline,
        foldl_readHeaderLine_append _ (cons_ne_nil _ _), nil_append, append_assoc]
      exact ⟨value, rfl⟩

theorem foldl_readHeaderLine_starts (hlines : ∀ line ∈ lines, ¬ IsContinuation line) :
    lines.foldl readHeaderLine headers = headers ++ lines.map splitHeaderLine := by
  induction lines generalizing headers with
  | nil => rw [foldl_nil, map_nil, append_nil]
  | cons line lines ih =>
    rw [foldl_cons, readHeaderLine_start (hlines line mem_cons_self),
      ih fun l hl => hlines l (mem_cons_of_mem _ hl), map_cons, append_assoc,
      singleton_append]

theorem extensionHeaders_committer (hbelow : ∀ header ∈ headers, header.1 ≠ utf8 "committer")
    (value : Bytes) (rest : List (Bytes × Bytes)) :
    extensionHeaders (headers ++ (utf8 "committer", value) :: rest) = rest := by
  have hnone : headers.findIdx? (fun header => header.1 = utf8 "committer") = none := by
    simpa [findIdx?_eq_none_iff] using hbelow
  have hfind : (headers ++ (utf8 "committer", value) :: rest).findIdx?
      (fun header => header.1 = utf8 "committer") = some headers.length := by
    rw [findIdx?_append, hnone, findIdx?_cons]
    simp
  rw [extensionHeaders, hfind]
  simp

theorem splitHeaderLine_spaced (hname : 32 ∉ name) (value : Bytes) :
    splitHeaderLine (name ++ 32 :: value) = (name, value) := by
  have hidx : (name ++ 32 :: value).idxOf? 32 = some name.length := by
    rw [idxOf?_eq_some_iff]
    refine ⟨by simp, by simp, fun j hj hspace => hname ?_⟩
    rw [getElem_append_left hj] at hspace
    exact hspace ▸ getElem_mem hj
  rw [splitHeaderLine, hidx]
  simp

theorem splitHeaderLine_unspaced (hline : 32 ∉ line) :
    splitHeaderLine line = (line, []) := by
  rw [splitHeaderLine, idxOf?_eq_none_iff.2 hline]

def IsHeaderName (name : Bytes) : Prop := name ≠ [] ∧ 32 ∉ name ∧ 10 ∉ name

theorem splitHeaderLine_name (hline : IsHeaderLine line) (hstart : ¬ IsContinuation line) :
    IsHeaderName (splitHeaderLine line).1 := by
  by_cases hspace : 32 ∈ line
  · obtain ⟨name, value, rfl, hname⟩ := eq_append_cons_of_mem hspace
    rw [splitHeaderLine_spaced hname]
    refine ⟨?_, hname, fun h => hline.2 (mem_append_left _ h)⟩
    rintro rfl
    exact hstart rfl
  · rw [splitHeaderLine_unspaced hspace]
    exact ⟨hline.1, hspace, hline.2⟩

theorem foldl_readHeaderLine_names (hheaders : ∀ header ∈ headers, IsHeaderName header.1)
    (hlines : ∀ line ∈ lines, IsHeaderLine line) :
    ∀ header ∈ lines.foldl readHeaderLine headers, IsHeaderName header.1 := by
  induction lines generalizing headers with
  | nil => exact hheaders
  | cons line lines ih =>
    apply ih _ fun l hl => hlines l (mem_cons_of_mem _ hl)
    have hline := hlines line mem_cons_self
    rcases continuation_cases line with ⟨continuation, rfl⟩ | hstart
    · rcases eq_nil_or_concat' headers with rfl | ⟨below, ⟨name, value⟩, rfl⟩
      · exact hheaders
      · rw [readHeaderLine_continuation]
        intro header hmem
        rcases mem_append.1 hmem with hmem | hmem
        · exact hheaders header (mem_append_left _ hmem)
        · obtain rfl := mem_singleton.1 hmem
          exact hheaders (name, value) (mem_append_right _ (mem_singleton_self _))
    · rw [readHeaderLine_start hstart]
      intro header hmem
      rcases mem_append.1 hmem with hmem | hmem
      · exact hheaders header hmem
      · obtain rfl := mem_singleton.1 hmem
        exact splitHeaderLine_name hline hstart

end Reading

section Folding

theorem appendFolded_eq (value : Bytes) :
    appendFolded value = value.flatMap fun b => if b = 10 then [10, 32] else [b] := by
  induction value with
  | nil => simp [appendFolded]
  | cons b value ih =>
    rw [appendFolded] at ih
    rw [appendFolded, splitOn_cons_eq_if_modifyHead, flatMap_cons, ← ih]
    cases hlines : value.splitOn 10 with
    | nil => exact absurd hlines (splitOn_ne_nil 10 value)
    | cons first rest =>
      by_cases hb : b = 10
      · simp [hb]
      · simp [hb, intercalate_cons_eq]

theorem appendFolded_append (value rest : Bytes) :
    appendFolded (value ++ rest) = appendFolded value ++ appendFolded rest := by
  rw [appendFolded_eq, appendFolded_eq, appendFolded_eq, flatMap_append]

theorem appendFolded_line (hline : 10 ∉ line) : appendFolded line = line := by
  rw [appendFolded, splitOn_eq_singleton hline, intercalate_singleton]

def headerLines (header : Bytes × Bytes) : List Bytes :=
  (header.1 ++ 32 :: appendFolded header.2).splitOn 10

theorem unlines_headerLines (header : Bytes × Bytes) :
    unlines 10 (headerLines header) = extraHeaderBytes header := unlines_splitOn _

theorem flatMap_extraHeaderBytes (headers : List (Bytes × Bytes)) :
    headers.flatMap extraHeaderBytes = unlines 10 (headers.flatMap headerLines) := by
  rw [unlines_flatMap]
  exact flatMap_congr fun header _ => (unlines_headerLines header).symm

theorem headerLines_name (hname : 10 ∉ name) (value : Bytes) : ∃ first rest,
    value.splitOn 10 = first :: rest ∧
      headerLines (name, value) = (name ++ 32 :: first) :: rest.map (32 :: ·) := by
  cases hlines : value.splitOn 10 with
  | nil => exact absurd hlines (splitOn_ne_nil 10 value)
  | cons first rest =>
    refine ⟨first, rest, rfl, ?_⟩
    have htext : name ++ 32 :: appendFolded value =
        [10].intercalate ((name ++ 32 :: first) :: rest.map (32 :: ·)) := by
      rw [appendFolded, hlines, intercalate_cons_eq, intercalate_cons_eq, flatMap_map,
        append_assoc, cons_append]
      rfl
    have hfree : ∀ line ∈ value.splitOn 10, 10 ∉ line := fun _ => not_mem_of_mem_splitOn
    rw [hlines] at hfree
    rw [headerLines, htext, splitOn_intercalate 10 _ (cons_ne_nil _ _)]
    refine forall_mem_cons.2 ⟨?_, fun line hline => ?_⟩
    · simpa [hname] using hfree first mem_cons_self
    · obtain ⟨segment, hsegment, rfl⟩ := mem_map.1 hline
      simpa using hfree segment (mem_cons_of_mem _ hsegment)

theorem foldl_continuations (headers : List (Bytes × Bytes)) (name value : Bytes)
    (segments : List Bytes) : (segments.map (32 :: ·)).foldl readHeaderLine (headers ++ [(name, value)]) =
      headers ++ [(name, value ++ segments.flatMap (10 :: ·))] := by
  induction segments generalizing value with
  | nil => rw [flatMap_nil, append_nil, map_nil, foldl_nil]
  | cons segment segments ih =>
    rw [map_cons, foldl_cons, readHeaderLine_continuation, ih, flatMap_cons,
      append_assoc]

theorem foldl_headerLines (hname : IsHeaderName name) (value : Bytes)
    (headers : List (Bytes × Bytes)) :
    (headerLines (name, value)).foldl readHeaderLine headers = headers ++ [(name, value)] := by
  obtain ⟨first, rest, hvalue, hlines⟩ := headerLines_name hname.2.2 value
  have hstart : ¬ IsContinuation (name ++ 32 :: first) := by
    cases name with
    | nil => exact absurd rfl hname.1
    | cons b name => exact fun h => hname.2.1 (Option.some.inj h ▸ mem_cons_self)
  rw [hlines, foldl_cons, readHeaderLine_start hstart, splitHeaderLine_spaced hname.2.1,
    foldl_continuations]
  have hback : [10].intercalate (value.splitOn 10) = value := intercalate_splitOn 10
  rw [hvalue, intercalate_cons_eq] at hback
  exact congrArg (fun v => headers ++ [(name, v)]) hback

theorem foldl_flatMap_headerLines (hheaders : ∀ header ∈ headers, IsHeaderName header.1)
    (above : List (Bytes × Bytes)) :
    (headers.flatMap headerLines).foldl readHeaderLine above = above ++ headers := by
  induction headers generalizing above with
  | nil => rw [flatMap_nil, foldl_nil, append_nil]
  | cons header headers ih =>
    rw [flatMap_cons, foldl_append,
      foldl_headerLines (hheaders header mem_cons_self),
      ih fun h hh => hheaders h (mem_cons_of_mem _ hh), append_assoc,
      singleton_append]

theorem headerLines_isHeaderLine (hname : IsHeaderName header.1) :
    ∀ line ∈ headerLines header, IsHeaderLine line := by
  obtain ⟨first, rest, _, hlines⟩ := headerLines_name hname.2.2 header.2
  intro line hline
  refine ⟨?_, not_mem_of_mem_splitOn hline⟩
  rw [hlines] at hline
  rintro rfl
  rcases mem_cons.1 hline with heq | hmem
  · exact absurd (heq ▸ rfl : (header.1 ++ 32 :: first).length = 0) (by simp)
  · obtain ⟨_, _, heq⟩ := mem_map.1 hmem
    cases heq

end Folding

section Refolding
variable {lines : List Bytes} {headers : List (Bytes × Bytes)}

def spacedLine (line : Bytes) : Bytes := if 32 ∈ line then line else line ++ [32]

theorem extraHeaderBytes_split (hline : 10 ∉ line) :
    extraHeaderBytes (splitHeaderLine line) = spacedLine line ++ [10] := by
  by_cases hspace : 32 ∈ line
  · obtain ⟨name, value, rfl, hname⟩ := eq_append_cons_of_mem hspace
    have hvalue : 10 ∉ value := fun h =>
      hline (mem_append_right _ (mem_cons_of_mem _ h))
    rw [splitHeaderLine_spaced hname, extraHeaderBytes, appendFolded_line hvalue, spacedLine,
      if_pos hspace]
  · rw [splitHeaderLine_unspaced hspace, extraHeaderBytes, appendFolded_line not_mem_nil,
      spacedLine, if_neg hspace]

theorem extraHeaderBytes_continuation (name value : Bytes) (hline : 10 ∉ continuation) :
    extraHeaderBytes (name, value ++ 10 :: continuation) =
      extraHeaderBytes (name, value) ++ 32 :: continuation ++ [10] := by
  have hfold : appendFolded (10 :: continuation) = 10 :: 32 :: continuation := by
    rw [← singleton_append, appendFolded_append, appendFolded_line hline]
    rfl
  simp [extraHeaderBytes, appendFolded_append, hfold]

theorem foldl_readHeaderLine_bytes (hlines : ∀ line ∈ lines, 10 ∉ line)
    (hstart : headers ≠ [] ∨ ∀ line ∈ lines.head?, ¬ IsContinuation line) :
    (lines.foldl readHeaderLine headers).flatMap extraHeaderBytes =
      headers.flatMap extraHeaderBytes ++ unlines 10 (lines.map spacedLine) := by
  induction lines generalizing headers with
  | nil => rw [map_nil, unlines_nil, append_nil, foldl_nil]
  | cons line lines ih =>
    have hline := hlines line mem_cons_self
    have hrest := fun l hl => hlines l (mem_cons_of_mem line hl)
    rw [foldl_cons, map_cons, unlines_cons]
    rcases continuation_cases line with ⟨continuation, rfl⟩ | hline'
    · have hne := hstart.resolve_right fun h => h _ rfl rfl
      obtain ⟨below, ⟨name, value⟩, rfl⟩ := (eq_nil_or_concat' headers).resolve_left hne
      rw [readHeaderLine_continuation, ih hrest (.inl (by simp)), flatMap_append,
        flatMap_singleton, extraHeaderBytes_continuation name value
          fun h => hline (mem_cons_of_mem _ h), spacedLine, if_pos mem_cons_self]
      simp
    · rw [readHeaderLine_start hline', ih hrest (.inl (by simp)), flatMap_append,
        flatMap_singleton, extraHeaderBytes_split hline]
      simp

theorem spacedLine_eq_self_iff : spacedLine line = line ↔ 32 ∈ line := by
  rw [spacedLine]
  split
  · exact iff_of_true rfl ‹_›
  · refine iff_of_false (fun h => ?_) ‹_›
    exact cons_ne_nil 32 [] (append_right_eq_self.1 h)

theorem not_mem_spacedLine (hline : 10 ∉ line) : 10 ∉ spacedLine line := by
  rw [spacedLine]
  split
  · exact hline
  · simpa using hline

theorem flatMap_extraHeaderBytes_head (hheaders : ∀ header ∈ headers, IsHeaderName header.1) :
    (headers.flatMap extraHeaderBytes).head? ≠ some 32 := by
  rcases headers with _ | ⟨⟨name, value⟩, headers⟩
  · nofun
  · have hname := hheaders (name, value) mem_cons_self
    rcases name with _ | ⟨b, name⟩
    · exact absurd rfl hname.1
    · intro h
      exact hname.2.1 (Option.some.inj h ▸ mem_cons_self)

theorem rewritten_iff (hlines : ∀ line ∈ lines, IsHeaderLine line) :
    (lines.foldl readHeaderLine []).flatMap extraHeaderBytes = unlines 10 lines ↔
      (∀ line ∈ lines, 32 ∈ line) ∧ ∀ line ∈ lines.head?, ¬ IsContinuation line := by
  have hfree : ∀ line ∈ lines, 10 ∉ line := fun line hline => (hlines line hline).2
  by_cases hstart : ∀ line ∈ lines.head?, ¬ IsContinuation line
  · have hspaced : ∀ line ∈ lines.map spacedLine, 10 ∉ line := by
      intro line hline
      obtain ⟨line, hmem, rfl⟩ := mem_map.1 hline
      exact not_mem_spacedLine (hfree line hmem)
    rw [foldl_readHeaderLine_bytes hfree (.inr hstart), flatMap_nil, nil_append,
      unlines_inj hspaced hfree, and_iff_left hstart]
    constructor
    · intro h line hline
      obtain ⟨i, hi, rfl⟩ := getElem_of_mem hline
      have hsame := congrArg (fun l => l[i]?) h
      simp only [getElem?_map, getElem?_eq_getElem hi, Option.map_some] at hsame
      exact spacedLine_eq_self_iff.1 (Option.some.inj hsame)
    · intro h
      exact (map_congr_left fun line hline => spacedLine_eq_self_iff.2 (h line hline)).trans
        (map_id lines)
  · refine iff_of_false (fun h => hstart ?_) fun h => hstart h.2
    have hhead := flatMap_extraHeaderBytes_head (foldl_readHeaderLine_names
      (fun _ hmem => absurd hmem not_mem_nil) hlines)
    rw [h] at hhead
    rcases lines with _ | ⟨line, lines⟩
    · nofun
    · intro first hfirst hcontinuation
      obtain rfl := Option.some.inj hfirst
      obtain ⟨rest, rfl⟩ := head?_eq_some_iff.1 hcontinuation
      exact hhead rfl

end Refolding

end Heddle
