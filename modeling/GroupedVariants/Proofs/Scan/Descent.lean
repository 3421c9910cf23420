import GroupedVariants.Delimiters
import GroupedVariants.Group

/-!
# 再帰下降の読み手

機械の積みを使わず、内側の群を再帰の呼び出しで読む。区切り文字の判定の順は文法の説明の順である。
-/

namespace GroupedVariants.Scan

/-- 群の中身を読んだ結果。残りの文は `n` 文字より短い。 -/
inductive Outcome (n : Nat) where
  /-- 位置 `stop` の閉じ文字まで読んだ。 -/
  | closed (items : List (List Char)) (children : List Group) (stop : Nat)
      (rest : List Char) (shorter : rest.length < n)
  /-- 壊れた。`rescued` は、この群とその内側で開いていた群の、閉じた子。 -/
  | malformed (rescued : List Group) (offset : Nat) (rest : List Char) (shorter : rest.length < n)
  /-- 閉じる前に文が終わった。 -/
  | unfinished

def Outcome.widen {m n : Nat} (h : m ≤ n) : Outcome m → Outcome n
  | .closed items children stop rest hr => .closed items children stop rest (by omega)
  | .malformed rescued offset rest hr => .malformed rescued offset rest (by omega)
  | .unfinished => .unfinished

mutual
/-- 要素の頭から読む。 -/
def readElements (d : Delimiters) (items : List (List Char)) (children : List Group) (o : Nat) :
    (text : List Char) → Outcome text.length
  | [] => .unfinished
  | c :: rest =>
    if Text.isBreaking c || c = d.closing then
      .malformed children (o + c.utf8Size) rest (by simp)
    else (readElement d items children o [c] (o + c.utf8Size) rest).widen (by simp)
termination_by text => text.length

/-- `start` から始まり `word` まで読んだ要素の続きを読む。 -/
def readElement (d : Delimiters) (items : List (List Char)) (children : List Group) (start : Nat)
    (word : List Char) (o : Nat) : (text : List Char) → Outcome text.length
  | [] => .unfinished
  | c :: rest =>
    let next := o + c.utf8Size
    if c = d.separator then (readElements d (items ++ [word]) children next rest).widen (by simp)
    else if c = d.closing then .closed (items ++ [word]) children o rest (by simp)
    else if c = d.variant then
      match rest with
      | [] => .unfinished
      | e :: rest =>
        let next := next + e.utf8Size
        if e = d.opening then
          match readElements d [] [] next rest with
          | .closed own _ stop rest' hr =>
            (readAfter d items (children ++ [⟨word ++ [c], start, stop, own⟩])
              (stop + d.closing.utf8Size) rest').widen (by simp only [List.length_cons]; omega)
          | .malformed rescued o' rest' hr =>
            .malformed (children ++ rescued) o' rest' (by simp only [List.length_cons]; omega)
          | .unfinished => .unfinished
        else if Text.isBreaking e then
          .malformed children next rest (by simp only [List.length_cons]; omega)
        else
          (readElement d items children start (word ++ [c, e]) next rest).widen
            (by simp only [List.length_cons]; omega)
    else (readElement d items children start (word ++ [c]) next rest).widen (by simp)
termination_by text => text.length

/-- 内側の群が閉じた直後から読む。 -/
def readAfter (d : Delimiters) (items : List (List Char)) (children : List Group) (o : Nat) :
    (text : List Char) → Outcome text.length
  | [] => .unfinished
  | c :: rest =>
    if c = d.separator then
      (readElements d items children (o + c.utf8Size) rest).widen (by simp)
    else if c = d.closing then .closed items children o rest (by simp)
    else .malformed children (o + c.utf8Size) rest (by simp)
termination_by text => text.length
end

/-- 項目のそれぞれに `lead` を冠し、空白一つでつないだもの。 -/
def joined (lead : List Char) (items : List (List Char)) : List Char :=
  List.intercalate [' '] (items.map (lead ++ ·))

mutual
/-- 語と語の間から読む。 -/
def readGap (d : Delimiters) (o : Nat) : (text : List Char) → List Match
  | [] => []
  | c :: rest =>
    if Text.isBreaking c then readGap d (o + c.utf8Size) rest
    else readWord d o [c] (o + c.utf8Size) rest
termination_by text => text.length

/-- 群の外で、`start` から始まり `word` まで読んだ語の続きを読む。 -/
def readWord (d : Delimiters) (start : Nat) (word : List Char) (o : Nat) :
    (text : List Char) → List Match
  | [] => []
  | c :: rest =>
    let next := o + c.utf8Size
    if Text.isBreaking c then readGap d next rest
    else if c = d.variant then
      match rest with
      | [] => []
      | e :: rest =>
        let next := next + e.utf8Size
        if e = d.opening then
          match readElements d [] [] next rest with
          | .closed items children stop rest' _ =>
            ⟨start, stop, joined (word ++ [c])
              (items ++ children.flatMap fun g => g.items.map (g.lead ++ ·))⟩ ::
              readGap d (stop + d.closing.utf8Size) rest'
          | .malformed rescued o' rest' _ =>
            rescued.map (fun g => ⟨g.start, g.stop, joined g.lead g.items⟩) ++
              readGap d o' rest'
          | .unfinished => []
        else if Text.isBreaking e then readGap d next rest
        else readWord d start (word ++ [c, e]) next rest
    else readWord d start (word ++ [c]) next rest
termination_by text => text.length
end

end GroupedVariants.Scan
