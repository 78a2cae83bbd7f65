import JsonCleave.Proofs.Reread
import JsonCleave.Proofs.Selection
/-!
# Copies lose nothing

The copy of a container reads back as the same tokens in the same order, with numbers compared by
value: a decimal of exponent zero reads back as an integer.
-/

namespace JsonCleave

namespace Number

def value? : Number → Option Rat
  | .integer n => some n
  | .decimal d =>
    some ((if d.negative then -(d.coefficient : Rat) else d.coefficient) * 10 ^ d.exponent)
  | .binary _ => none

theorem value?_reread (n : Number) : n.reread.value? = n.value? := by
  cases n with
  | integer n => rfl
  | binary x => rfl
  | decimal d =>
    rw [reread]
    split
    · rename_i hexponent
      rw [value?, value?, hexponent, Rat.zpow_zero, Rat.mul_one]
      split
      · rw [Rat.intCast_neg]
        rfl
      · rfl
    · rfl

end Number

namespace Token

/-- The content of a token. Numbers are compared by value. -/
structure Content where
  kind : String
  name : Option String
  text : Option String
  truth : Option Bool
  value : Option Rat

def value? : Token → Option Rat
  | .scalar (.number n) => n.value?
  | _ => none

def content (t : Token) : Content := ⟨t.label, t.name?, t.text?, t.boolean?, t.value?⟩

theorem content_reread (value : Scalar) :
    content (.scalar value.reread) = content (.scalar value) := by
  cases value with
  | null => rfl
  | boolean b => rfl
  | nonFinite x => rfl
  | string s => rfl
  | number n =>
    show Content.mk "number" none none none n.reread.value? = ⟨"number", none, none, none, n.value?⟩
    rw [Number.value?_reread]

end Token

namespace Tree

open Token (content)

mutual
theorem map_content_reread : ∀ (v : Tree), v.reread.tokens.map content = v.tokens.map content
  | .scalar value => by
    rw [reread, tokens, tokens, List.map_singleton, List.map_singleton, Token.content_reread]
  | .object members => by
    rw [reread, tokens, tokens, List.map_cons, List.map_cons, List.map_append, List.map_append,
      map_content_rereadMembers members]
  | .array elements => by
    rw [reread, tokens, tokens, List.map_cons, List.map_cons, List.map_append, List.map_append,
      map_content_rereadElements elements]

theorem map_content_rereadMembers : ∀ (members : List (String × Tree)),
    (memberTokens (rereadMembers members)).map content = (memberTokens members).map content
  | [] => rfl
  | (name, value) :: rest => by
    rw [rereadMembers, memberTokens, memberTokens, List.map_cons, List.map_cons, List.map_append,
      List.map_append, map_content_reread value, map_content_rereadMembers rest]

theorem map_content_rereadElements : ∀ (elements : List Tree),
    (elementTokens (rereadElements elements)).map content = (elementTokens elements).map content
  | [] => rfl
  | value :: rest => by
    rw [rereadElements, elementTokens, elementTokens, List.map_append, List.map_append,
      map_content_reread value, map_content_rereadElements rest]
end

end Tree

namespace Reader

open Cursor (before)

end Reader

end JsonCleave
