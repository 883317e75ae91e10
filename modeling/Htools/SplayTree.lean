import Htools.Machine
import Htools.Zippers
import Mathlib.Logic.Function.Basic

/-!
The splay trees of `hutils/include/hutils/tree.h`. A node has pointers to its
children only, and every call but the one for an empty tree moves a node to the root.
A splay takes the tree apart into two others, whose open ends `__left` and `__right`
start at a node `__node` of its own. The two halves of each loop differ by left and
right and are one definition with a side.
-/
namespace Htools.SplayTree
open Zippers (Side)

/-- `SPLAY_ENTRY`. -/
structure Entry (N : Type) where
  spe_left : Option N
  spe_right : Option N
  deriving DecidableEq, Repr

def Entry.child {N : Type} (e : Entry N) : Side → Option N
  | .left => e.spe_left
  | .right => e.spe_right

def Entry.set {N : Type} (e : Entry N) (s : Side) (value : Option N) : Entry N :=
  match s with
  | .left => { e with spe_left := value }
  | .right => { e with spe_right := value }

/-- The heads, which are numbered, and the entry of each node. -/
structure Memory (N : Type) where
  sph_root : Nat → Option N
  field : N → Entry N

/-- The variables of a splay: `__node`, and for `__left` and `__right` the node they
    point to, none where that is `__node`. -/
structure Locals (N : Type) where
  node : Entry N
  left : Option N
  right : Option N

variable {N : Type}

/-- `SPLAY_LEFT` or `SPLAY_RIGHT`. -/
def Memory.child (m : Memory N) (s : Side) (elm : N) : Option N := (m.field elm).child s

def deref : Option N → Except Stop N
  | none => .error .fault
  | some elm => .ok elm

/-- `__left` or `__right`. -/
def Locals.tail (v : Locals N) : Side → Option N
  | .left => v.left
  | .right => v.right

def Locals.set_tail (v : Locals N) (s : Side) (value : Option N) : Locals N :=
  match s with
  | .left => { v with left := value }
  | .right => { v with right := value }

section
variable [DecidableEq N]

def Memory.set_child (m : Memory N) (s : Side) (elm : N) (value : Option N) : Memory N :=
  { m with field := Function.update m.field elm ((m.field elm).set s value) }

def Memory.set_root (m : Memory N) (head : Nat) (value : Option N) : Memory N :=
  { m with sph_root := Function.update m.sph_root head value }

/-- A write to a child of what `__left` or `__right` points to. -/
def set_at (m : Memory N) (v : Locals N) (tmp : Option N) (s : Side) (value : Option N) : Memory N × Locals N :=
  match tmp with
  | none => (m,{ v with node := v.node.set s value })
  | some elm => (m.set_child s elm value,v)

/-- `SPLAY_ROTATE_RIGHT` for the left child, or `SPLAY_ROTATE_LEFT` for the right one. -/
def splay_rotate (s : Side) (m : Memory N) (head : Nat) (tmp : N) : Except Stop (Memory N) := do
  let root ← deref (m.sph_root head)
  let m := m.set_child s root (m.child s.other tmp)
  let m := m.set_child s.other tmp (some root)
  return m.set_root head (some tmp)

/-- `SPLAY_LINKLEFT` with `__right`, or `SPLAY_LINKRIGHT` with `__left`. -/
def splay_link (s : Side) (m : Memory N) (v : Locals N) (head : Nat) : Except Stop (Memory N × Locals N) := do
  let root ← deref (m.sph_root head)
  let (m,v) := set_at m v (v.tail s.other) s (some root)
  let v := v.set_tail s.other (some root)
  return (m.set_root head (m.child s root),v)

def splay_assemble (m : Memory N) (v : Locals N) (head : Nat) : Except Stop (Memory N) := do
  let root ← deref (m.sph_root head)
  let (m,v) := set_at m v v.left .right (m.child .left root)
  let (m,v) := set_at m v v.right .left (m.child .right root)
  let m := m.set_child .left root v.node.spe_right
  return m.set_child .right root v.node.spe_left

/-- A round of the loop of `SPLAY` towards a side, and whether the loop goes on;
    `along` tells if the key is on that side of a node as well. -/
def splay_round (s : Side) (along : N → Bool) (m : Memory N) (v : Locals N) (head : Nat) :
    Except Stop (Memory N × Locals N × Bool) := do
  let root ← deref (m.sph_root head)
  match m.child s root with
  | none => return (m,v,false)
  | some tmp =>
    if along tmp then do
      let m ← splay_rotate s m head tmp
      let root ← deref (m.sph_root head)
      if m.child s root = none then return (m,v,false)
      else do
        let (m,v) ← splay_link s m v head
        return (m,v,true)
    else do
      let (m,v) ← splay_link s m v head
      return (m,v,true)

/-- The loop of `SPLAY`, with the comparison of the element with a node. -/
def splay_loop (go : N → Int) (head : Nat) : Nat → Memory N → Locals N → Except Stop (Memory N × Locals N)
  | fuel,m,v => do
    let root ← deref (m.sph_root head)
    if go root = 0 then return (m,v)
    else
      match fuel with
      | 0 => .error .fuel
      | fuel + 1 => do
        let (m,v,more) ←
          if go root < 0 then splay_round .left (fun tmp => go tmp < 0) m v head
          else splay_round .right (fun tmp => go tmp > 0) m v head
        if more then splay_loop go head fuel m v else return (m,v)

def locals : Locals N := ⟨⟨none,none⟩,none,none⟩

def splay (go : N → Int) (fuel head : Nat) (m : Memory N) : Except Stop (Memory N) := do
  let (m,v) ← splay_loop go head fuel m locals
  splay_assemble m v head

/-- The loop of `SPLAY_MINMAX`, which only ends at a node without a child on the side. -/
def minmax_loop (val : Int) (head : Nat) : Nat → Memory N → Locals N → Except Stop (Memory N × Locals N)
  | 0,_,_ => .error .fuel
  | fuel + 1,m,v => do
    let (m,v,more) ←
      if val < 0 then splay_round .left (fun _ => val < 0) m v head
      else if val > 0 then splay_round .right (fun _ => val > 0) m v head
      else pure (m,v,true)
    if more then minmax_loop val head fuel m v else return (m,v)

def splay_minmax (val : Int) (fuel head : Nat) (m : Memory N) : Except Stop (Memory N) := do
  let (m,v) ← minmax_loop val head fuel m locals
  splay_assemble m v head

def splay_find (cmp : N → N → Int) (fuel head : Nat) (m : Memory N) (elm : N) : Except Stop (Memory N × Option N) :=
  if m.sph_root head = none then return (m,none)
  else do
    let m ← splay (cmp elm) fuel head m
    let root ← deref (m.sph_root head)
    return (m,if cmp elm root = 0 then some root else none)

/-- `while (SPLAY_LEFT(elm, field) != NULL)`. -/
def leftmost : Nat → Memory N → N → Except Stop N
  | fuel,m,elm =>
    match fuel,m.child .left elm with
    | _,none => .ok elm
    | 0,some _ => .error .fuel
    | fuel + 1,some left => leftmost fuel m left

/-- The loop behind the splay has its own fuel. -/
def splay_next (cmp : N → N → Int) (fuel walk head : Nat) (m : Memory N) (elm : N) : Except Stop (Memory N × Option N) := do
  let m ← splay (cmp elm) fuel head m
  match m.child .right elm with
  | none => return (m,none)
  | some right =>
    let next ← leftmost walk m right
    return (m,some next)

def splay_insert (cmp : N → N → Int) (fuel head : Nat) (m : Memory N) (elm : N) : Except Stop (Memory N × Option N) :=
  if m.sph_root head = none then
    return (((m.set_child .right elm none).set_child .left elm none).set_root head (some elm),none)
  else do
    let m ← splay (cmp elm) fuel head m
    let root ← deref (m.sph_root head)
    let comp := cmp elm root
    if comp < 0 then
      let m := m.set_child .left elm (m.child .left root)
      let m := m.set_child .right elm (some root)
      let m := m.set_child .left root none
      return (m.set_root head (some elm),none)
    else if comp > 0 then
      let m := m.set_child .right elm (m.child .right root)
      let m := m.set_child .left elm (some root)
      let m := m.set_child .right root none
      return (m.set_root head (some elm),none)
    else return (m,some root)

def splay_remove (cmp : N → N → Int) (fuel head : Nat) (m : Memory N) (elm : N) : Except Stop (Memory N × Option N) :=
  if m.sph_root head = none then return (m,none)
  else do
    let m ← splay (cmp elm) fuel head m
    let root ← deref (m.sph_root head)
    if cmp elm root = 0 then
      if m.child .left root = none then return (m.set_root head (m.child .right root),some elm)
      else do
        let tmp := m.child .right root
        let m := m.set_root head (m.child .left root)
        let m ← splay (cmp elm) fuel head m
        let root ← deref (m.sph_root head)
        return (m.set_child .right root tmp,some elm)
    else return (m,none)

/-- `SPLAY_MIN` or `SPLAY_MAX`. -/
def splay_min_max (val : Int) (fuel head : Nat) (m : Memory N) : Except Stop (Memory N × Option N) :=
  if m.sph_root head = none then return (m,none)
  else do
    let m ← splay_minmax val fuel head m
    return (m,m.sph_root head)

def splay_min (fuel head : Nat) (m : Memory N) : Except Stop (Memory N × Option N) := splay_min_max (-1) fuel head m

def splay_max (fuel head : Nat) (m : Memory N) : Except Stop (Memory N × Option N) := splay_min_max 1 fuel head m

/-- The nodes that `SPLAY_FOREACH` visits from one on. -/
def foreach_from (cmp : N → N → Int) (fuel walk head : Nat) : Nat → Memory N → Option N → Except Stop (Memory N × List N)
  | _,m,none => .ok (m,[])
  | 0,_,some _ => .error .fuel
  | rounds + 1,m,some x => do
    let (m,next) ← splay_next cmp fuel walk head m x
    let (m,rest) ← foreach_from cmp fuel walk head rounds m next
    return (m,x :: rest)

def splay_foreach (cmp : N → N → Int) (fuel walk rounds head : Nat) (m : Memory N) : Except Stop (Memory N × List N) := do
  let (m,x) ← splay_min fuel head m
  foreach_from cmp fuel walk head rounds m x

end

end Htools.SplayTree
