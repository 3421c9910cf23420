import GroupedVariants.Proofs.Listing
import GroupedVariants.Proofs.Repl.Lines
import GroupedVariants.Proofs.Repl.Request
import Mathlib.Data.List.Forall2

/-!
# 対話の全体

一行への応答はその行だけで決まる。対話は、終わりの命令までの応答を順に並べたものである。
-/

namespace GroupedVariants.Repl

variable {t : Transformer} {lower : List Char → List Char} {line name rest : List Char}

/-! ## 一行への応答 -/

inductive Response where
  | silence
  | answer (text : List Char)
  | stop
  deriving DecidableEq

def Response.shown : Response → List Char
  | answer text => text ++ ['\n', '\n']
  | _ => []

/-- 行への応答。名は小文字にそろえてから比べる。 -/
inductive Responds (t : Transformer) (lower : List Char → List Char) (line : List Char) :
    Response → Prop
  | blank (h : Text.trim line = []) : Responds t lower line .silence
  | plain (h : Plain line) : Responds t lower line (.answer (t.expand line))
  | help {name rest : List Char} (h : Invokes line name rest)
      (hname : lower name ∈ Command.help.names) : Responds t lower line (.answer helpText.toList)
  | exit {name rest : List Char} (h : Invokes line name rest)
      (hname : lower name ∈ Command.exit.names) : Responds t lower line .stop
  | options {name rest : List Char} (h : Invokes line name rest)
      (hname : lower name ∈ Command.options.names) :
      Responds t lower line (.answer (optionsText false t.delimiters))
  | usage {name : List Char} (h : Invokes line name [])
      (hname : lower name ∈ Command.spans.names) :
      Responds t lower line (.answer "Usage: :matches <text>".toList)
  | noGroups {name rest : List Char} (h : Invokes line name rest)
      (hname : lower name ∈ Command.spans.names) (hne : rest ≠ []) (hfound : t.findMatches rest = []) :
      Responds t lower line (.answer "No groups".toList)
  | spans {name rest : List Char} (h : Invokes line name rest)
      (hname : lower name ∈ Command.spans.names) (hne : rest ≠ []) (hfound : t.findMatches rest ≠ []) :
      Responds t lower line (.answer ((t.matchesJson rest).pretty 0))
  | unknown {name rest : List Char} (h : Invokes line name rest)
      (hname : ∀ k : Command, lower name ∉ k.names) :
      Responds t lower line (.answer
        ("Unknown command: ".toList ++ name ++ ". Type ':help' for available commands.".toList))

def response (t : Transformer) (line : List Char) : Response :=
  match request line, answer? t false line with
  | .quit, _ => .stop
  | _, some text => .answer text
  | _, none => .silence

theorem expansionText_eq (t : Transformer) (line : List Char) :
    expansionText t false line = t.expand line := by
  unfold expansionText
  dsimp only
  split
  next h => exact h.symm
  next => rfl

theorem spansText_eq (hne : rest ≠ []) :
    spansText t false rest =
      if t.findMatches rest = [] then "No groups".toList else (t.matchesJson rest).pretty 0 := by
  simp only [spansText, List.isEmpty_iff, if_neg hne]
  rfl

theorem Responds.eq_response (hlower : Lowering lower) {r : Response} (h : Responds t lower line r) :
    r = response t line := by
  cases h with
  | blank h => simp [response, answer?, request_of_blank h]
  | plain h => simp [response, answer?, request_of_plain h, expansionText_eq]
  | help h hname => simp [response, answer?, request_of_mem hlower h hname, Command.request]
  | exit h hname => simp [response, request_of_mem hlower h hname, Command.request]
  | options h hname => simp [response, answer?, request_of_mem hlower h hname, Command.request]
  | usage h hname => simp [response, answer?, request_of_mem hlower h hname, Command.request, spansText]
  | noGroups h hname hne hfound =>
      simp [response, answer?, request_of_mem hlower h hname, Command.request, spansText_eq hne, hfound]
  | spans h hname hne hfound =>
      simp [response, answer?, request_of_mem hlower h hname, Command.request, spansText_eq hne, hfound]
  | unknown h hname => simp [response, answer?, request_of_not_mem hlower h hname]

theorem exists_responds (t : Transformer) (lower : List Char → List Char) (line : List Char) :
    ∃ r, Responds t lower line r := by
  rcases blank_or_plain_or_invokes line with h | h | ⟨name, rest, h⟩
  · exact ⟨_, .blank h⟩
  · exact ⟨_, .plain h⟩
  · by_cases hname : ∀ k : Command, lower name ∉ k.names
    · exact ⟨_, .unknown h hname⟩
    · obtain ⟨k, hk⟩ := Classical.not_forall.mp hname
      replace hk := Classical.not_not.mp hk
      cases k with
      | help => exact ⟨_, .help h hk⟩
      | exit => exact ⟨_, .exit h hk⟩
      | options => exact ⟨_, .options h hk⟩
      | spans =>
          by_cases hne : rest = []
          · exact ⟨_, .usage (hne ▸ h) hk⟩
          · by_cases hfound : t.findMatches rest = []
            · exact ⟨_, .noGroups h hk hne hfound⟩
            · exact ⟨_, .spans h hk hne hfound⟩

/-! ## 一行ずつの進み -/

theorem shown_response (t : Transformer) (line : List Char) :
    (response t line).shown = reply t false line := by
  unfold response reply answer?
  cases request line <;> rfl

theorem response_eq_stop_iff (t : Transformer) (line : List Char) :
    response t line = .stop ↔ request line = .quit := by
  unfold response answer?
  cases request line <;> simp

theorem readRecord_not_mem_scanRecords (t : Transformer) (text : List Char) :
    readRecord ∉ t.scanRecords text := by
  intro h
  obtain ⟨n, -, hn⟩ := List.mem_map.mp h
  have htarget : Scan.Notice.scanTarget = "rustyline" := congrArg Log.Record.target hn
  exact absurd htarget (by decide)

theorem readRecord_not_mem_records (t : Transformer) (line : List Char) :
    readRecord ∉ records t line := by
  unfold records
  split
  next =>
    rw [Transformer.expandRecords, List.mem_append, not_or]
    refine ⟨readRecord_not_mem_scanRecords t line, fun h => ?_⟩
    split at h
    · have htarget : "rustyline" = "vgroup_core::transform" :=
        congrArg Log.Record.target (List.mem_singleton.mp h)
      exact absurd htarget (by decide)
    · cases h
  next text _ =>
    split
    · exact List.not_mem_nil
    · exact readRecord_not_mem_scanRecords t text
  next => exact List.not_mem_nil

theorem runLines_append {lines : List (List Char)} (h : .stop ∉ lines.map (response t))
    (rest : List (Option (List Char))) :
    runLines t false (lines.map some ++ rest) =
      (runLines t false rest).after (lines.flatMap fun line => (response t line).shown)
        (lines.flatMap fun line => readRecord :: records t line) := by
  induction lines with
  | nil => rfl
  | cons line lines ih =>
      rw [List.map_cons, List.mem_cons, not_or] at h
      have hline : request line ≠ .quit := fun hquit =>
        h.1 ((response_eq_stop_iff t line).mpr hquit).symm
      rw [List.map_cons, List.cons_append, runLines, if_neg hline, ih h.2]
      simp only [Transcript.after, List.flatMap_cons, shown_response, List.append_assoc]

theorem runLines_stop (h : response t line = .stop) (rest : List (Option (List Char))) :
    runLines t false (some line :: rest) = ⟨[], [readRecord]⟩ := by
  rw [runLines, if_pos ((response_eq_stop_iff t line).mp h)]

theorem count_reads (t : Transformer) (lines : List (List Char)) :
    (lines.flatMap fun line => readRecord :: records t line).count readRecord = lines.length := by
  induction lines with
  | nil => rfl
  | cons line lines ih =>
      have hrecords := List.count_eq_zero_of_not_mem (readRecord_not_mem_records t line)
      rw [List.flatMap_cons, List.cons_append, List.count_cons_self, List.count_append, hrecords, ih,
        List.length_cons, Nat.zero_add]

theorem takeWhile_ne_stop {rs tail : List Response} (h : .stop ∉ rs)
    (htail : tail.takeWhile (· ≠ .stop) = []) : (rs ++ tail).takeWhile (· ≠ .stop) = rs := by
  have hrs : ∀ r ∈ rs, decide (r ≠ .stop) = true := fun r hr =>
    decide_eq_true fun heq : r = .stop => h (heq ▸ hr)
  rw [List.takeWhile_append_of_pos hrs, htail, List.append_nil]

/-- 終わりの命令の先は、何であっても読まれない。 -/
theorem runLines_responses (t : Transformer) (lines : List (List Char))
    (rest : List (Option (List Char))) (hrest : .stop ∈ lines.map (response t) ∨ rest = []) :
    let rs := lines.map (response t)
    let talk := runLines t false (lines.map some ++ rest)
    talk.shown = (rs.takeWhile (· ≠ .stop)).flatMap Response.shown ++
        (if .stop ∈ rs then [] else "^D\n".toList) ∧
      talk.records.count readRecord = (rs.takeWhile (· ≠ .stop)).length + 1 := by
  dsimp only
  by_cases hstop : .stop ∈ lines.map (response t)
  · -- 初めの終わりの命令の前と後に分ける。
    rw [if_pos hstop]
    obtain ⟨rs, after, hmap, hrs⟩ := List.eq_append_cons_of_mem hstop
    obtain ⟨before, others, rfl, rfl, hothers⟩ := List.map_eq_append_iff.mp hmap
    obtain ⟨line, others, rfl, hline, rfl⟩ := List.map_eq_cons_iff.mp hothers
    rw [hmap, takeWhile_ne_stop hrs rfl, List.map_append, List.append_assoc, List.map_cons,
      List.cons_append, runLines_append hrs, runLines_stop hline]
    refine ⟨?_, ?_⟩
    · rw [Transcript.after, List.append_nil, List.flatMap_map, List.append_nil]
    · rw [Transcript.after, List.count_append, count_reads, List.length_map]
      rfl
  · obtain rfl := hrest.resolve_left hstop
    have hall := takeWhile_ne_stop hstop List.takeWhile_nil
    rw [List.append_nil] at hall
    rw [if_neg hstop, hall, runLines_append hstop]
    refine ⟨?_, ?_⟩
    · rw [Transcript.after, List.flatMap_map]
      rfl
    · rw [Transcript.after, List.count_append, count_reads, List.length_map]
      rfl

/-! ## 対話 -/

structure Session (t : Transformer) (lower : List Char → List Char) : Prop where
  /-- どの行にも、応答がちょうど一つある。 -/
  responds : ∀ line, ∃! r, Responds t lower line r
  /-- 終わりの命令までの応答を順に示し、その先の行は読まない。 -/
  converses : ∀ stdin lines rest rs, linesOf stdin = lines.map some ++ rest →
    List.Forall₂ (Responds t lower) lines rs → .stop ∈ rs ∨ rest = [] →
      (run t false stdin).shown =
        "vgroup REPL\nType ':help' for available commands.\n\n".toList ++
          ((rs.takeWhile (· ≠ .stop)).flatMap Response.shown ++
            if .stop ∈ rs then [] else "^D\n".toList) ∧
      (run t false stdin).records.count readRecord = (rs.takeWhile (· ≠ .stop)).length + 1
  delivers : ∀ text, ∃ lines, Delivers lines text
  delivered : ∀ lines, (∀ line ∈ lines, '\n' ∉ line) → ∃ text, Delivers lines text
  /-- 届いた行が、届いた順に読まれる。 -/
  reads : ∀ lines text, Delivers lines text → linesOf (Text.encodeUtf8 text) = lines.map some
  /-- 示した JSON は、残りの文の範囲に読み戻せる。 -/
  readable : ∀ rest, (Json.Value.parse? ((t.matchesJson rest).pretty 0)).bind Json.Value.matches? =
    some (t.findMatches rest)

theorem forall₂_responds (hlower : Lowering lower) {lines : List (List Char)} {rs : List Response}
    (h : List.Forall₂ (Responds t lower) lines rs) : rs = lines.map (response t) := by
  induction h with
  | nil => rfl
  | cons h _ ih => rw [List.map_cons, h.eq_response hlower, ih]

theorem run_session (t : Transformer) (hlower : Lowering lower) : Session t lower where
  responds line := by
    obtain ⟨r, hr⟩ := exists_responds t lower line
    refine ⟨r, hr, fun s hs => ?_⟩
    rw [hs.eq_response hlower, hr.eq_response hlower]
  converses stdin lines rest rs hlines hrs hrest := by
    have hbanner : banner false =
        "vgroup REPL\nType ':help' for available commands.\n\n".toList := by decide
    obtain rfl := forall₂_responds hlower hrs
    obtain ⟨hshown, hreads⟩ := runLines_responses t lines rest hrest
    rw [run, hlines]
    exact ⟨by rw [Transcript.after, hshown, hbanner], hreads⟩
  delivers := exists_delivers
  delivered lines h := ⟨_, delivers_flatMap h⟩
  reads _ _ := linesOf_encodeUtf8
  readable := t.matches?_pretty

theorem run_session_quit :
    let stdin := Text.encodeUtf8 " \n lg:(a,b)\n:M x lg:(a)\n:Q now\nlg:(c)\n".toList
    (run .default false stdin).shown =
        ("vgroup REPL\nType ':help' for available commands.\n\n" ++ " lg:a lg:b\n\n" ++
          "[\n  \x7b\n    \"start\": 2,\n    \"end\": 7,\n    \"content\": \"lg:a\"\n  \x7d\n]\n\n").toList ∧
      (run .default false stdin).records.count readRecord = 4 := by
  have h := run_session .default Lowering.toLower
  have hlines := h.reads
    [" ".toList, " lg:(a,b)".toList, ":M x lg:(a)".toList, ":Q now".toList, "lg:(c)".toList] _
    (.newline (by decide) (by decide) <| .newline (by decide) (by decide) <|
      .newline (by decide) (by decide) <| .newline (by decide) (by decide) <|
      .newline (by decide) (by decide) .nil)
  have hplain : Plain " lg:(a,b)".toList :=
    ⟨[' '], 'l', "g:(a,b)".toList, rfl, by simp [Text.isBlank], by decide, by decide⟩
  have hspans : Invokes ":M x lg:(a)".toList ['M'] "x lg:(a)".toList :=
    ⟨[], " x lg:(a)".toList, rfl, by simp, by simp [Text.isBlank], .some (by decide)⟩
  have hexit : Invokes ":Q now".toList ['Q'] "now".toList :=
    ⟨[], " now".toList, rfl, by simp, by simp [Text.isBlank], .some (by decide)⟩
  obtain ⟨hshown, hreads⟩ := h.converses _ _ [some "lg:(c)".toList] _ hlines
    (.cons (.blank (by decide)) <| .cons (.plain hplain) <|
      .cons (.spans hspans (by decide) (by decide) (by decide)) <|
      .cons (.exit hexit (by decide)) .nil) (.inl (by decide))
  exact ⟨hshown.trans (by decide +kernel), hreads.trans (by decide)⟩

end GroupedVariants.Repl
