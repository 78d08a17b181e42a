import Workflow.Json.Reader
import Mathlib.Data.List.Basic

/-!
# Tokens of written values

A written value is spelled out by the tokens of its grammar.  The reader, which goes over the
tokens with a stack of open containers, makes the same value of them, whatever is on the stack.
-/

namespace Workflow
namespace Json

namespace Written

mutual

def tokens : Written -> List Token
  | text pieces => [.text pieces]
  | arr [] => [.mark '[', .mark ']']
  | arr (v :: rest) => .mark '[' :: (tokens v ++ itemTokens rest ++ [.mark ']'])
  | obj [] => [.mark '\x7b', .mark '\x7d']
  | obj ((key, v) :: rest) =>
      .mark '\x7b' :: .text key :: .mark ':' :: (tokens v ++ memberTokens rest ++ [.mark '\x7d'])
  | v => [.scalar v]

/-- The items of an array after the first. -/
def itemTokens : List Written -> List Token
  | [] => []
  | v :: rest => .mark ',' :: (tokens v ++ itemTokens rest)

/-- The members of an object after the first. -/
def memberTokens : List (List Piece × Written) -> List Token
  | [] => []
  | (key, v) :: rest => .mark ',' :: .text key :: .mark ':' :: (tokens v ++ memberTokens rest)

end

end Written

namespace Reading

theorem foldlM_tokens_firstItem (w : Written) (stack : List Frame) :
    w.tokens.foldlM step (firstItem stack) =
      w.tokens.foldlM step (value (.array [] :: stack)) := by
  cases w with
  | null => rfl
  | bool b => rfl
  | number n => rfl
  | text pieces => rfl
  | arr items =>
      cases items with
      | nil => rfl
      | cons v rest => rfl
  | obj members =>
      cases members with
      | nil => rfl
      | cons m rest => rfl

mutual

/-- Where a value is due, its tokens complete it. -/
theorem foldlM_tokens : ∀ (w : Written) (stack : List Frame),
    w.tokens.foldlM step (value stack) = some (complete w stack)
  | .null, _ => rfl
  | .bool _, _ => rfl
  | .number _, _ => rfl
  | .text _, _ => rfl
  | .arr [], _ => rfl
  | .arr (v :: rest), stack => by
      rw [Written.tokens, List.foldlM_cons]
      change (v.tokens ++ Written.itemTokens rest ++ [Token.mark ']']).foldlM step
        (firstItem stack) = _
      rw [List.foldlM_append, List.foldlM_append, foldlM_tokens_firstItem, foldlM_tokens v]
      change (Written.itemTokens rest).foldlM step (afterItem [v] stack) >>= _ = _
      rw [foldlM_itemTokens rest]
      change some (complete (.arr (rest.reverse ++ [v]).reverse) stack) = _
      rw [List.reverse_append, List.reverse_reverse]
      rfl
  | .obj [], _ => rfl
  | .obj ((key, v) :: rest), stack => by
      rw [Written.tokens, List.foldlM_cons]
      change (v.tokens ++ Written.memberTokens rest ++ [Token.mark '\x7d']).foldlM step
        (value (.object [] key :: stack)) = _
      rw [List.foldlM_append, List.foldlM_append, foldlM_tokens v]
      change (Written.memberTokens rest).foldlM step (afterMember [(key, v)] stack) >>= _ = _
      rw [foldlM_memberTokens rest]
      change some (complete (.obj (rest.reverse ++ [(key, v)]).reverse) stack) = _
      rw [List.reverse_append, List.reverse_reverse]
      rfl

theorem foldlM_itemTokens : ∀ (ws items : List Written) (stack : List Frame),
    (Written.itemTokens ws).foldlM step (afterItem items stack) =
      some (afterItem (ws.reverse ++ items) stack)
  | [], _, _ => rfl
  | v :: rest, items, stack => by
      rw [Written.itemTokens, List.foldlM_cons]
      change (v.tokens ++ Written.itemTokens rest).foldlM step (value (.array items :: stack)) = _
      rw [List.foldlM_append, foldlM_tokens v]
      change (Written.itemTokens rest).foldlM step (afterItem (v :: items) stack) = _
      rw [foldlM_itemTokens rest, List.reverse_cons, List.append_assoc]
      rfl

theorem foldlM_memberTokens : ∀ (ws members : List (List Piece × Written)) (stack : List Frame),
    (Written.memberTokens ws).foldlM step (afterMember members stack) =
      some (afterMember (ws.reverse ++ members) stack)
  | [], _, _ => rfl
  | (key, v) :: rest, members, stack => by
      rw [Written.memberTokens, List.foldlM_cons]
      change (v.tokens ++ Written.memberTokens rest).foldlM step
        (value (.object members key :: stack)) = _
      rw [List.foldlM_append, foldlM_tokens v]
      change (Written.memberTokens rest).foldlM step (afterMember ((key, v) :: members) stack) = _
      rw [foldlM_memberTokens rest, List.reverse_cons, List.append_assoc]
      rfl

end

end Reading

theorem ofTokens?_tokens (w : Written) : ofTokens? w.tokens = some w := by
  rw [ofTokens?, Reading.foldlM_tokens]
  rfl

end Json
end Workflow
