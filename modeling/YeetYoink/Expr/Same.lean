import YeetYoink.Expr

/-!
# When two expressions are the same

Node by node. Floating-point literals are compared as numbers, so a literal that is no number
differs from itself.
-/

namespace YeetYoink

mutual

def Expr.same : Expr → Expr → Bool
  | .ident a, .ident b => a = b
  | .int a, .int b => a = b
  | .num a, .num b => a == b
  | .bool a, .bool b => a = b
  | .null, .null => true
  | .str a, .str b => a = b
  | .template a xs, .template b ys => a = b && sameAll xs ys
  | .array xs, .array ys => sameAll xs ys
  | .dict ps, .dict qs => samePairs ps qs
  | .range a b, .range c d => a.same c && b.same d
  | .unary o a, .unary p b => o = p && a.same b
  | .binary o a b, .binary p c d => o = p && a.same c && b.same d
  | .and a b, .and c d => a.same c && b.same d
  | .or a b, .or c d => a.same c && b.same d
  | .index a b, .index c d => a.same c && b.same d
  | .call a xs, .call b ys => a.same b && sameAll xs ys
  | .assign k a b, .assign l c d => k = l && a.same c && b.same d
  | .block xs, .block ys => sameAll xs ys
  | .yif a xs u, .yif b ys v =>
    a.same b && sameAll xs ys && match u, v with
      | none, none => true
      | some us, some vs => sameAll us vs
      | _, _ => false
  | .yoyo a xs, .yoyo b ys => a.same b && sameAll xs ys
  | .yall k a xs, .yall l b ys => k = l && a.same b && sameAll xs ys
  | .yeet a, .yeet b => a.same b
  | .yolo xs, .yolo ys => sameAll xs ys
  | .lambda ps xs, .lambda qs ys => ps = qs && sameAll xs ys
  | .macroLit ps xs, .macroLit qs ys => ps = qs && sameAll xs ys
  | .bad s, .bad t => s = t
  | _, _ => false

def Expr.sameAll : List Expr → List Expr → Bool
  | [], [] => true
  | x :: xs, y :: ys => x.same y && sameAll xs ys
  | _, _ => false

def Expr.samePairs : List (Expr × Expr) → List (Expr × Expr) → Bool
  | [], [] => true
  | (a, b) :: ps, (c, d) :: qs => a.same c && b.same d && samePairs ps qs
  | _, _ => false

end

end YeetYoink
