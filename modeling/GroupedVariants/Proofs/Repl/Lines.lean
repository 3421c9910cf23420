import GroupedVariants.Proofs.Text.Utf8
import GroupedVariants.Repl

/-!
# 入力のバイト列は、行に分かれる

UTF-8 では改行のバイトが他の文字の中に現れないので、バイトで分けても文字で分けても同じ行になる。
-/

namespace GroupedVariants.Repl

/-- 文が行を順に届ける。行は改行を含まず、最後の行は改行で終わらなくてもよい。 -/
inductive Delivers : List (List Char) → List Char → Prop
  | nil : Delivers [] []
  | last {line : List Char} (hline : '\n' ∉ line) (hne : line ≠ []) : Delivers [line] line
  | newline {line text : List Char} {lines : List (List Char)} (hline : '\n' ∉ line)
      (hlast : line.getLast? ≠ some '\r') (rest : Delivers lines text) :
      Delivers (line :: lines) (line ++ '\n' :: text)
  | returned {line text : List Char} {lines : List (List Char)} (hline : '\n' ∉ line)
      (rest : Delivers lines text) : Delivers (line :: lines) (line ++ '\r' :: '\n' :: text)

theorem exists_delivers (text : List Char) : ∃ lines, Delivers lines text := by
  induction text with
  | nil => exact ⟨[], .nil⟩
  | cons c text ih =>
      obtain ⟨lines, h⟩ := ih
      by_cases hc : c = '\n'
      · subst hc
        exact ⟨[] :: lines, .newline List.not_mem_nil (by simp) h⟩
      have extend {line : List Char} (hline : '\n' ∉ line) : '\n' ∉ c :: line := fun hmem =>
        (List.mem_cons.mp hmem).elim (fun heq => hc heq.symm) hline
      cases h with
      | nil => exact ⟨[[c]], .last (extend List.not_mem_nil) (List.cons_ne_nil c [])⟩
      | last hline _ => exact ⟨[c :: text], .last (extend hline) (List.cons_ne_nil c text)⟩
      | @newline line text lines hline hlast h =>
          cases line with
          | nil =>
              -- 改行の直前の復帰は行に残らない。
              by_cases hr : c = '\r'
              · subst hr
                exact ⟨[] :: lines, .returned List.not_mem_nil h⟩
              · exact ⟨[c] :: lines, .newline (extend hline) (by simpa using hr) h⟩
          | cons d line => exact ⟨(c :: d :: line) :: lines, .newline (extend hline) hlast h⟩
      | @returned line text lines hline h => exact ⟨(c :: line) :: lines, .returned (extend hline) h⟩

theorem delivers_flatMap {lines : List (List Char)} (h : ∀ line ∈ lines, '\n' ∉ line) :
    Delivers lines (lines.flatMap (· ++ ['\r', '\n'])) := by
  induction lines with
  | nil => exact .nil
  | cons line lines ih =>
      rw [List.flatMap_cons, List.append_assoc]
      exact .returned (h line List.mem_cons_self) (ih fun l hl => h l (List.mem_cons_of_mem line hl))

variable {line text : List Char} {lines : List (List Char)} {bytes : List UInt8}

/-! ## バイトの行 -/

theorem splitLines_append (h : 10 ∉ bytes) (rest : List UInt8) :
    splitLines (bytes ++ 10 :: rest) = (bytes ++ [10]) :: splitLines rest := by
  induction bytes with
  | nil => rfl
  | cons b bytes ih =>
      have hb : b ≠ 10 := fun heq => h (heq ▸ List.mem_cons_self)
      have hbytes : 10 ∉ bytes := fun hmem => h (List.mem_cons_of_mem b hmem)
      rw [List.cons_append, splitLines, if_neg hb, ih hbytes]
      rfl

theorem splitLines_of_not_mem (h : 10 ∉ bytes) (hne : bytes ≠ []) : splitLines bytes = [bytes] := by
  induction bytes with
  | nil => exact absurd rfl hne
  | cons b bytes ih =>
      have hb : b ≠ 10 := fun heq => h (heq ▸ List.mem_cons_self)
      have hbytes : 10 ∉ bytes := fun hmem => h (List.mem_cons_of_mem b hmem)
      rw [splitLines, if_neg hb]
      cases bytes with
      | nil => rfl
      | cons c bytes => rw [ih hbytes (List.cons_ne_nil c bytes)]

theorem newline_not_mem_utf8 (h : '\n' ∉ line) : 10 ∉ line.flatMap String.utf8EncodeChar := by
  intro hmem
  obtain ⟨c, hc, hbyte⟩ := List.mem_flatMap.mp hmem
  have hnat : c.toNat = '\n'.toNat := Text.toNat_eq_of_mem_utf8EncodeChar (by decide) hbyte
  exact h (Char.toNat_inj.mp hnat ▸ hc)

/-! ## 届く行 -/

theorem lineText?_utf8 (s : List Char) :
    lineText? (s.flatMap String.utf8EncodeChar) = some (stripBreak s) := by
  have h := congrArg (Option.map stripBreak) (Text.decodeUtf8?_encodeUtf8 s)
  rwa [Text.decodeUtf8?, Option.map_map, ← Text.mk_toArray_utf8] at h

theorem stripBreak_last (h : '\n' ∉ line) : stripBreak line = line := by
  unfold stripBreak
  split
  next hs => exact absurd (List.mem_reverse.mp (hs ▸ List.mem_cons_self)) h
  next hs => exact absurd (List.mem_reverse.mp (hs ▸ List.mem_cons_self)) h
  next => rfl

theorem stripBreak_newline (h : line.getLast? ≠ some '\r') : stripBreak (line ++ ['\n']) = line := by
  rw [stripBreak, List.reverse_append]
  cases hr : line.reverse with
  | nil => rw [List.reverse_eq_nil_iff.mp hr]; rfl
  | cons c s =>
      rw [List.reverse_eq_cons_iff] at hr
      subst hr
      have hc : c ≠ '\r' := by simpa using h
      simp [hc]

theorem stripBreak_returned (line : List Char) : stripBreak (line ++ ['\r', '\n']) = line := by
  simp [stripBreak]

theorem lines_utf8_append (h : '\n' ∉ line) (text : List Char) :
    (splitLines ((line ++ '\n' :: text).flatMap String.utf8EncodeChar)).map lineText? =
      some (stripBreak (line ++ ['\n'])) ::
        (splitLines (text.flatMap String.utf8EncodeChar)).map lineText? := by
  have hbreak : String.utf8EncodeChar '\n' = [10] := by decide
  rw [List.flatMap_append, List.flatMap_cons, hbreak, List.singleton_append,
    splitLines_append (newline_not_mem_utf8 h), List.map_cons, ← lineText?_utf8,
    List.flatMap_append, List.flatMap_singleton, hbreak]

/-- 届けられた行が、届けられた順に読まれる。 -/
theorem linesOf_encodeUtf8 (h : Delivers lines text) :
    linesOf (Text.encodeUtf8 text) = lines.map some := by
  rw [linesOf, Text.toList_encodeUtf8]
  induction h with
  | nil => rfl
  | @last line hline hne =>
      have hbytes : line.flatMap String.utf8EncodeChar ≠ [] := by
        obtain ⟨c, s, rfl⟩ := List.exists_cons_of_ne_nil hne
        intro hnil
        exact String.utf8EncodeChar_ne_nil (List.flatMap_eq_nil_iff.mp hnil c List.mem_cons_self)
      rw [splitLines_of_not_mem (newline_not_mem_utf8 hline) hbytes]
      simp only [List.map_cons, List.map_nil, lineText?_utf8, stripBreak_last hline]
  | @newline line text lines hline hlast _ ih =>
      rw [lines_utf8_append hline, ih, stripBreak_newline hlast, List.map_cons]
  | @returned line text lines hline _ ih =>
      have hreturned : '\n' ∉ line ++ ['\r'] := by simp [hline]
      have h := lines_utf8_append hreturned text
      rw [List.append_assoc, List.append_assoc, ih] at h
      exact h.trans (congrArg (fun l => some l :: lines.map some) (stripBreak_returned line))

end GroupedVariants.Repl
