import DerivedTables.Tree.Arena

namespace DerivedTables

namespace Kind

/-- Two nodes of one kind that agree in everything but their children. -/
def sameLabel : Kind → Kind → Bool
  | root .., root .. => true
  | definition x _, definition y _ => x == y
  | column x s, column y t => x == y && s == t
  | derived x _, derived y _ => x == y
  | split _ x, split _ y => x.map Prod.fst == y.map Prod.fst
  | assignment x _, assignment y _ => x == y
  | string x, string y => x == y
  | number x, number y => x == y
  | boolean x, boolean y => x == y
  | identifier x, identifier y => x == y
  | binary x _ _, binary y _ _ => x == y
  | access .., access .. => true
  | function x _ _, function y _ _ => x == y
  | invoke .., invoke .. => true
  | conditional .., conditional .. => true
  | binding x _ _, binding y _ _ => x == y
  | effect .., effect .. => true
  | rows _, rows _ => true
  | context x, context y => x == y
  | param x s, param y t => x == y && s == t
  | null, null => true
  | reference x _, reference y _ => x == y
  | dataset x _, dataset y _ => x == y
  | filter _, filter _ => true
  | pipeline .., pipeline .. => true
  | intent x _, intent y _ => x == y
  | reduce .., reduce .. => true
  | _, _ => false

end Kind

namespace Arena

def sameShapeWithin (a : Arena) : Nat → NodeId → NodeId → Bool
  | 0, _, _ => false
  | fuel + 1, x, y =>
    match a.kind? x, a.kind? y with
    | some k, some l =>
      k.sameLabel l && k.children.length == l.children.length &&
        (k.children.zip l.children).all fun (x, y) => a.sameShapeWithin fuel x y
    | _, _ => false

/-- Equal up to ids, types and spans; references are equal when they share their target. -/
def sameShape (a : Arena) (x y : NodeId) : Bool := a.sameShapeWithin (a.size + 1) x y

end Arena

end DerivedTables
