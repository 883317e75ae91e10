import Htools.Machine
import Htools.RedBlack
import Mathlib.Logic.Function.Basic

/-!
The red-black trees of `hutils/include/hutils/tree.h`. A node has pointers to its
children and to its parent, and a head one to the root. The macros come in pairs
that differ by left and right; such a pair is one definition with a side. A read
through a null pointer is a fault, and `RB_AUGMENT` is empty as it is by default.
-/
namespace Htools.RbTree
open Zippers (Side)
open RedBlack (Color)

/-- `RB_ENTRY`, with `RB_BLACK` and `RB_RED` as colors. -/
structure Entry (N : Type) where
  rbe_left : Option N
  rbe_right : Option N
  rbe_parent : Option N
  rbe_color : Color
  deriving DecidableEq, Repr

/-- The heads, which are numbered, and the entry of each node. -/
structure Memory (N : Type) where
  rbh_root : Nat → Option N
  field : N → Entry N

variable {N : Type}

/-- `RB_LEFT` or `RB_RIGHT`. -/
def Memory.child (m : Memory N) (s : Side) (elm : N) : Option N :=
  match s with
  | .left => (m.field elm).rbe_left
  | .right => (m.field elm).rbe_right

def Memory.parent (m : Memory N) (elm : N) : Option N := (m.field elm).rbe_parent

def Memory.color (m : Memory N) (elm : N) : Color := (m.field elm).rbe_color

def deref : Option N → Except Stop N
  | none => .error .fault
  | some elm => .ok elm

/-- The pointer, if it is to a red node. -/
def reds (m : Memory N) (elm : Option N) : Option N := elm.filter fun x => m.color x = .red

/-- `while (NULL != (left = RB_LEFT(elm, field)))`, or to the right. -/
def rb_last (s : Side) : Nat → Memory N → N → Except Stop N
  | fuel,m,elm =>
    match fuel,m.child s elm with
    | _,none => .ok elm
    | 0,some _ => .error .fuel
    | fuel + 1,some next => rb_last s fuel m next

/-- The walk up that calls `RB_AUGMENT`, which does nothing. -/
def rb_augment_up : Nat → Memory N → N → Except Stop Unit
  | 0,_,_ => .error .fuel
  | fuel + 1,m,left =>
    match m.parent left with
    | none => .ok ()
    | some parent => rb_augment_up fuel m parent

section
variable [DecidableEq N]

def Memory.set_child (m : Memory N) (s : Side) (elm : N) (value : Option N) : Memory N :=
  { m with
    field := Function.update m.field elm
      (match s with
      | .left => { m.field elm with rbe_left := value }
      | .right => { m.field elm with rbe_right := value }) }

def Memory.set_parent (m : Memory N) (elm : N) (value : Option N) : Memory N :=
  { m with field := Function.update m.field elm { m.field elm with rbe_parent := value } }

def Memory.set_color (m : Memory N) (elm : N) (value : Color) : Memory N :=
  { m with field := Function.update m.field elm { m.field elm with rbe_color := value } }

def Memory.set_root (m : Memory N) (head : Nat) (value : Option N) : Memory N :=
  { m with rbh_root := Function.update m.rbh_root head value }

/-- `(elm)->field = (old)->field`. -/
def Memory.copy_field (m : Memory N) (elm old : N) : Memory N :=
  { m with field := Function.update m.field elm (m.field old) }

def rb_set (m : Memory N) (elm : N) (parent : Option N) : Memory N :=
  { m with field := Function.update m.field elm ⟨none,none,parent,.red⟩ }

def rb_set_blackred (m : Memory N) (black red : N) : Memory N := (m.set_color black .black).set_color red .red

/-- `if (child) RB_PARENT(child, field) = parent`. -/
def adopt (m : Memory N) (child parent : Option N) : Memory N :=
  match child with
  | none => m
  | some child => m.set_parent child parent

/-- `if (elm) RB_COLOR(elm, field) = color`. -/
def paint (m : Memory N) (elm : Option N) (color : Color) : Memory N :=
  match elm with
  | none => m
  | some elm => m.set_color elm color

/-- The child of the parent, or the root where there is none, becomes another node. -/
def rb_replace (m : Memory N) (head : Nat) (parent : Option N) (elm : N) (child : Option N) : Memory N :=
  match parent with
  | some parent => if m.child .left parent = some elm then m.set_child .left parent child else m.set_child .right parent child
  | none => m.set_root head child

/-- `RB_ROTATE_LEFT` or `RB_ROTATE_RIGHT`. -/
def rb_rotate (s : Side) (m : Memory N) (head : Nat) (elm : N) : Except Stop (Memory N) := do
  let tmp ← deref (m.child s.other elm)
  let m := m.set_child s.other elm (m.child s tmp)
  let m := adopt m (m.child s tmp) (some elm)
  let m := m.set_parent tmp (m.parent elm)
  let m := rb_replace m head (m.parent elm) elm (some tmp)
  let m := m.set_child s tmp (some elm)
  return m.set_parent elm (some tmp)

/-- A round of `RB_INSERT_COLOR`, with the node of the next one. -/
def insert_color_round (m : Memory N) (head : Nat) (parent elm : N) : Except Stop (Memory N × N) := do
  let gparent ← deref (m.parent parent)
  let s : Side := if m.child .left gparent = some parent then .left else .right
  match reds m (m.child s.other gparent) with
  | some tmp => return (rb_set_blackred (m.set_color tmp .black) parent gparent,gparent)
  | none =>
    let (m,parent,elm) ←
      if m.child s.other parent = some elm then do
        let m ← rb_rotate s m head parent
        pure (m,elm,parent)
      else pure (m,parent,elm)
    let m ← rb_rotate s.other (rb_set_blackred m parent gparent) head gparent
    return (m,elm)

def rb_insert_color (head : Nat) : Nat → Memory N → N → Except Stop (Memory N)
  | fuel,m,elm =>
    match fuel,reds m (m.parent elm) with
    | _,none => do
      let root ← deref (m.rbh_root head)
      return m.set_color root .black
    | 0,some _ => .error .fuel
    | fuel + 1,some parent => do
      let (m,elm) ← insert_color_round m head parent elm
      rb_insert_color head fuel m elm

/-- The last turn of `RB_REMOVE_COLOR`, at a sibling whose other child is red. -/
def remove_color_turn (s : Side) (m : Memory N) (head : Nat) (parent tmp : N) : Except Stop (Memory N) :=
  let m := m.set_color tmp (m.color parent)
  let m := m.set_color parent .black
  let m := paint m (m.child s.other tmp) .black
  rb_rotate s m head parent

/-- A round from where the sibling `tmp` is black, and whether it goes on with the parent. -/
def remove_color_settle (s : Side) (m : Memory N) (head : Nat) (parent tmp : N) : Except Stop (Memory N × Bool) :=
  if reds m (m.child .left tmp) = none ∧ reds m (m.child .right tmp) = none then
    return (m.set_color tmp .red,true)
  else do
    let (m,tmp) ←
      if reds m (m.child s.other tmp) = none then do
        let m ← rb_rotate s.other ((paint m (m.child s tmp) .black).set_color tmp .red) head tmp
        let tmp ← deref (m.child s.other parent)
        pure (m,tmp)
      else pure (m,tmp)
    let m ← remove_color_turn s m head parent tmp
    return (m,false)

/-- A round of `RB_REMOVE_COLOR`. -/
def remove_color_round (m : Memory N) (head : Nat) (parent : N) (elm : Option N) : Except Stop (Memory N × Bool) := do
  let s : Side := if m.child .left parent = elm then .left else .right
  let tmp ← deref (m.child s.other parent)
  let (m,tmp) ←
    if m.color tmp = .red then do
      let m ← rb_rotate s (rb_set_blackred m tmp parent) head parent
      let tmp ← deref (m.child s.other parent)
      pure (m,tmp)
    else pure (m,tmp)
  remove_color_settle s m head parent tmp

def rb_remove_color (head : Nat) : Nat → Memory N → Option N → Option N → Except Stop (Memory N)
  | fuel,m,parent,elm =>
    if reds m elm = none ∧ elm ≠ m.rbh_root head then
      match fuel with
      | 0 => .error .fuel
      | fuel + 1 => do
        let p ← deref parent
        let (m,more) ← remove_color_round m head p elm
        if more then rb_remove_color head fuel m (m.parent p) (some p)
        else return paint m (m.rbh_root head) .black
    else return paint m elm .black

/-- The node goes out of the tree, with a child in its place. -/
def rb_unlink (m : Memory N) (head : Nat) (elm : N) (child : Option N) : Memory N :=
  rb_replace (adopt m child (m.parent elm)) head (m.parent elm) elm child

/-- The label `color`. -/
def remove_end (fuel head : Nat) (m : Memory N) (color : Color) (parent child : Option N) : Except Stop (Memory N) :=
  if color = .black then rb_remove_color head fuel m parent child else return m

/-- The next node takes the place of one with two children. -/
def rb_supplant (fuel head : Nat) (m : Memory N) (old right : N) : Except Stop (Memory N) := do
  let elm ← rb_last .left fuel m right
  let child := m.child .right elm
  let parent := m.parent elm
  let color := m.color elm
  let m := rb_unlink m head elm child
  let parent := if m.parent elm = some old then some elm else parent
  let m := m.copy_field elm old
  let m := rb_replace m head (m.parent old) old (some elm)
  let left ← deref (m.child .left old)
  let m := m.set_parent left (some elm)
  let m := adopt m (m.child .right old) (some elm)
  match parent with
  | none => pure ()
  | some parent => rb_augment_up fuel m parent
  remove_end fuel head m color parent child

def rb_remove (fuel head : Nat) (m : Memory N) (elm : N) : Except Stop (Memory N × N) := do
  let m ←
    match m.child .left elm,m.child .right elm with
    | none,child => remove_end fuel head (rb_unlink m head elm child) (m.color elm) (m.parent elm) child
    | some child,none => remove_end fuel head (rb_unlink m head elm (some child)) (m.color elm) (m.parent elm) (some child)
    | some _,some right => rb_supplant fuel head m elm right
  return (m,elm)

/-- The loop of `RB_INSERT`: a node that compares equal, or the last parent and the last comparison. -/
def insert_search (cmp : N → N → Int) (m : Memory N) (elm : N) :
    Nat → Option N → Option N → Int → Except Stop (N ⊕ (Option N × Int))
  | _,none,parent,comp => .ok (.inr (parent,comp))
  | 0,some _,_,_ => .error .fuel
  | fuel + 1,some tmp,_,_ =>
    let comp := cmp elm tmp
    if comp < 0 then insert_search cmp m elm fuel (m.child .left tmp) (some tmp) comp
    else if comp > 0 then insert_search cmp m elm fuel (m.child .right tmp) (some tmp) comp
    else .ok (.inl tmp)

/-- The node as a child of the parent that the search has ended at, or as the root. -/
def rb_attach (m : Memory N) (head : Nat) (parent : Option N) (comp : Int) (elm : N) : Memory N :=
  let m := rb_set m elm parent
  match parent with
  | some parent => if comp < 0 then m.set_child .left parent (some elm) else m.set_child .right parent (some elm)
  | none => m.set_root head (some elm)

def rb_insert (cmp : N → N → Int) (fuel head : Nat) (m : Memory N) (elm : N) : Except Stop (Memory N × Option N) := do
  match ← insert_search cmp m elm fuel (m.rbh_root head) none 0 with
  | .inl tmp => return (m,some tmp)
  | .inr (parent,comp) =>
    let m ← rb_insert_color head fuel (rb_attach m head parent comp elm) elm
    return (m,none)

end

/-- The loop of `RB_FIND`. -/
def find_from (cmp : N → N → Int) (m : Memory N) (elm : N) : Nat → Option N → Except Stop (Option N)
  | _,none => .ok none
  | 0,some _ => .error .fuel
  | fuel + 1,some tmp =>
    let comp := cmp elm tmp
    if comp < 0 then find_from cmp m elm fuel (m.child .left tmp)
    else if comp > 0 then find_from cmp m elm fuel (m.child .right tmp)
    else .ok (some tmp)

def rb_find (cmp : N → N → Int) (fuel head : Nat) (m : Memory N) (elm : N) : Except Stop (Option N) :=
  find_from cmp m elm fuel (m.rbh_root head)

/-- The loop of `RB_NFIND`. -/
def nfind_from (cmp : N → N → Int) (m : Memory N) (elm : N) : Nat → Option N → Option N → Except Stop (Option N)
  | _,none,res => .ok res
  | 0,some _,_ => .error .fuel
  | fuel + 1,some tmp,res =>
    let comp := cmp elm tmp
    if comp < 0 then nfind_from cmp m elm fuel (m.child .left tmp) (some tmp)
    else if comp > 0 then nfind_from cmp m elm fuel (m.child .right tmp) res
    else .ok (some tmp)

def rb_nfind (cmp : N → N → Int) (fuel head : Nat) (m : Memory N) (elm : N) : Except Stop (Option N) :=
  nfind_from cmp m elm fuel (m.rbh_root head) none

/-- The loop of `RB_MINMAX`. -/
def minmax_from (m : Memory N) (val : Int) : Nat → Option N → Option N → Except Stop (Option N)
  | _,none,parent => .ok parent
  | 0,some _,_ => .error .fuel
  | fuel + 1,some tmp,_ =>
    if val < 0 then minmax_from m val fuel (m.child .left tmp) (some tmp)
    else minmax_from m val fuel (m.child .right tmp) (some tmp)

def rb_minmax (fuel head : Nat) (m : Memory N) (val : Int) : Except Stop (Option N) :=
  minmax_from m val fuel (m.rbh_root head) none

def rb_min (fuel head : Nat) (m : Memory N) : Except Stop (Option N) := rb_minmax fuel head m (-1)

def rb_max (fuel head : Nat) (m : Memory N) : Except Stop (Option N) := rb_minmax fuel head m 1

section
variable [DecidableEq N]

/-- The second loop of `RB_NEXT`: up as long as the node is on the side. -/
def climb (s : Side) : Nat → Memory N → N → Except Stop N
  | fuel,m,elm =>
    match m.parent elm with
    | none => .ok elm
    | some parent =>
      if m.child s parent = some elm then
        match fuel with
        | 0 => .error .fuel
        | fuel + 1 => climb s fuel m parent
      else .ok elm

/-- `RB_NEXT` on the right side and `RB_PREV` on the left one. -/
def rb_step (s : Side) (fuel : Nat) (m : Memory N) (elm : N) : Except Stop (Option N) :=
  match m.child s elm with
  | some elm => some <$> rb_last s.other fuel m elm
  | none => do
    let parent := m.parent elm
    match parent with
    | some parent =>
      if m.child s.other parent = some elm then return some parent
      else
        let elm ← climb s fuel m elm
        return m.parent elm
    | none =>
      let elm ← climb s fuel m elm
      return m.parent elm

def rb_next (fuel : Nat) (m : Memory N) (elm : N) : Except Stop (Option N) := rb_step .right fuel m elm

def rb_prev (fuel : Nat) (m : Memory N) (elm : N) : Except Stop (Option N) := rb_step .left fuel m elm

/-- The nodes that a `for` loop visits from one on, with the step of `RB_NEXT` or `RB_PREV`. -/
def foreach_from (s : Side) (fuel : Nat) (m : Memory N) : Nat → Option N → Except Stop (List N)
  | _,none => .ok []
  | 0,some _ => .error .fuel
  | rounds + 1,some x => do
    let next ← rb_step s fuel m x
    let rest ← foreach_from s fuel m rounds next
    return x :: rest

def rb_foreach (fuel rounds head : Nat) (m : Memory N) : Except Stop (List N) := do
  foreach_from .right fuel m rounds (← rb_min fuel head m)

def rb_foreach_reverse (fuel rounds head : Nat) (m : Memory N) : Except Stop (List N) := do
  foreach_from .left fuel m rounds (← rb_max fuel head m)

/-- `RB_FOREACH_SAFE` with a body that may change the tree. -/
def foreach_safe_from (body : Memory N → N → Except Stop (Memory N)) (fuel : Nat) :
    Nat → Memory N → Option N → Except Stop (Memory N)
  | _,m,none => .ok m
  | 0,_,some _ => .error .fuel
  | rounds + 1,m,some x => do
    let y ← rb_next fuel m x
    let m ← body m x
    foreach_safe_from body fuel rounds m y

def rb_foreach_safe (body : Memory N → N → Except Stop (Memory N)) (fuel rounds head : Nat) (m : Memory N) :
    Except Stop (Memory N) := do
  foreach_safe_from body fuel rounds m (← rb_min fuel head m)

end

end Htools.RbTree
