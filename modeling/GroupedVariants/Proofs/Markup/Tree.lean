import GroupedVariants.Group
import GroupedVariants.Proofs.Delimiters
import GroupedVariants.Text.Width

/-!
# 語と群の木と、その書き方

木は文法どおりに書ける群だけを表す。綴りの条件は型が持つ。
-/

namespace GroupedVariants

/-- 語を切らず、どの区切り文字でもない。 -/
def Delimiters.IsPlain (d : Delimiters) (c : Char) : Prop :=
  Text.isBreaking c = false ∧ ∀ r, c ≠ d.get r

instance (d : Delimiters) (c : Char) : Decidable (d.IsPlain c) :=
  decidable_of_iff (Text.isBreaking c = false ∧ ∀ r ∈ Role.all, c ≠ d.get r)
    ⟨fun h => ⟨h.1, fun r => h.2 r r.mem_all⟩, fun h => ⟨h.1, fun r _ => h.2 r⟩⟩

namespace Markup

structure Segment (d : Delimiters) where
  chars : List Char
  nonempty : chars ≠ []
  plain : ∀ c ∈ chars, d.IsPlain c

structure Token (d : Delimiters) where
  segments : List (Segment d)
  nonempty : segments ≠ []

mutual
/-- 群。要素は少なくとも一つある。 -/
inductive Tree (d : Delimiters) where
  | node (lead : Token d) (first : Element d) (rest : List (Element d))

inductive Element (d : Delimiters) where
  | token (t : Token d)
  | group (t : Tree d)
end

variable {d : Delimiters}

def Tree.lead : Tree d → Token d
  | .node lead _ _ => lead

def Tree.elements : Tree d → List (Element d)
  | .node _ first rest => first :: rest

/-! ## 綴り -/

def Token.text (t : Token d) : List Char :=
  List.intercalate [d.variant] (t.segments.map (·.chars))

/-- 群の項目に冠する綴り。 -/
def Token.prefixed (t : Token d) : List Char := t.text ++ [d.variant]

/-- 群の始まりから開き文字まで。 -/
def Token.header (t : Token d) : List Char := t.prefixed ++ [d.opening]

mutual
/-- 閉じ文字の手前まで。 -/
def Tree.head : Tree d → List Char
  | .node lead first rest => lead.header ++ (first.render ++ renderRest rest)

def Element.render : Element d → List Char
  | .token t => t.text
  | .group t => t.head ++ [d.closing]

/-- 二つ目からの要素。それぞれの前に区切りを置く。 -/
def renderRest : List (Element d) → List Char
  | [] => []
  | e :: es => d.separator :: (e.render ++ renderRest es)
end

def Tree.render (t : Tree d) : List Char := t.head ++ [d.closing]

/-! ## 展開 -/

/-- じかに置かれた語。 -/
def tokensOf (es : List (Element d)) : List (List Char) :=
  es.filterMap fun
    | .token t => some t.text
    | .group _ => none

/-- じかに置かれた群。 -/
def treesOf (es : List (Element d)) : List (Tree d) :=
  es.filterMap fun
    | .token _ => none
    | .group t => some t

namespace Tree

/-- 自身の冠を付けた、じかの語。内側の群の語は入らない。 -/
def ownWords (t : Tree d) : List (List Char) :=
  (tokensOf t.elements).map (t.lead.prefixed ++ ·)

/-- 自身の語に、子の語が冠を重ねて続く。孫から先は何も加えない。 -/
def words (t : Tree d) : List (List Char) :=
  t.ownWords ++ (treesOf t.elements).flatMap fun child =>
    child.ownWords.map (t.lead.prefixed ++ ·)

def expansion (t : Tree d) : List Char := List.intercalate [' '] t.words

end Tree

/-! ## 位置 -/

/-- 位置 `o` から区切りを挟んで書かれた要素のうち、じかに置かれた群とその位置。 -/
def treesAt (o : Nat) : List (Element d) → List (Nat × Tree d)
  | [] => []
  | .token t :: es => treesAt (o + Text.byteLength t.text + d.separator.utf8Size) es
  | .group t :: es => (o, t) :: treesAt (o + Text.byteLength t.render + d.separator.utf8Size) es

theorem map_snd_treesAt (o : Nat) (es : List (Element d)) : (treesAt o es).map (·.2) = treesOf es := by
  induction es generalizing o with
  | nil => rfl
  | cons e es ih =>
      cases e with
      | token t => exact ih _
      | group t => exact congrArg (t :: ·) (ih _)

end Markup

end GroupedVariants
