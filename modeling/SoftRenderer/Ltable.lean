import SoftRenderer.Kit.Scatter

/-!
# The tables of the interpreter

A table of Lua has an array part, for the keys from one on, and a hash part, a chained scatter table
with Brent's variation. Positions in the hash part are the numbers of its nodes. A key that is
assigned for the first time goes into the hash part; where that is full, both parts are made anew in
sizes that fit the keys. The fuel of `newkey` bounds how often this can happen within itself.
-/

namespace SoftRenderer.Ltable

open Kit

/-- Strings and other objects are keys by their identity. `nil` and NaN are none. -/
inductive Key (K S O : Type)
  | number (n : K)
  | string (ts : S)
  | boolean (b : Bool)
  | object (o : O)
  deriving DecidableEq

/-- What the hash functions read: the sum of the ints of a number, the `hash` of a string, and the
address of an object. -/
structure Hashes (K S O : Type) where
  ints : K → ℕ
  hash : S → ℕ
  address : O → ℕ

structure Node (κ V : Type) where
  key : Option κ
  val : Option V
  next : Option ℕ

/-- `dummy` is set while the hash part is the common `dummynode`. -/
structure Table (κ V : Type) where
  array : List (Option V)
  node : ℕ → Node κ V
  lsizenode : ℕ
  lastfree : ℕ
  dummy : Bool

/-- What a `TValue *` into a table points to. -/
inductive Slot
  | array (i : ℕ)
  | node (i : ℕ)

/-- `invalidKey` is the error of `next`, and `invalidValue` the one of `concat`; `invalid` stands
for the use of a node that is not there. -/
inductive TableError
  | overflow
  | invalidKey
  | invalidValue (i : ℤ)
  | invalid
  | depth
  deriving DecidableEq

def maxbits : ℕ := 26

def maxasize : ℕ := 2 ^ maxbits

def log2Table : List ℕ :=
  [0, 1] ++ List.replicate 2 2 ++ List.replicate 4 3 ++ List.replicate 8 4 ++
    List.replicate 16 5 ++ List.replicate 32 6 ++ List.replicate 64 7 ++ List.replicate 128 8

def luaOLog2Loop (l : ℤ) (x : ℕ) : ℤ :=
  if 256 ≤ x then luaOLog2Loop (l + 8) (x / 256) else l + log2Table.getD x 0
termination_by x

def luaOLog2 (x : ℕ) : ℤ := luaOLog2Loop (-1) x

def ceillog2 (x : ℕ) : ℕ := (luaOLog2 (x - 1) + 1).toNat

namespace Table

variable {κ V : Type}

def sizearray (t : Table κ V) : ℕ := t.array.length

def sizenode (t : Table κ V) : ℕ := 2 ^ t.lsizenode

def read (t : Table κ V) : Slot → Option V
  | .array i => (t.array[i]?).join
  | .node i => (t.node i).val

def write (t : Table κ V) (p : Slot) (v : Option V) : Table κ V :=
  match p with
  | .array i => { t with array := t.array.set i v }
  | .node i => { t with node := Function.update t.node i { t.node i with val := v } }

def setNode (t : Table κ V) (i : ℕ) (n : Node κ V) : Table κ V :=
  { t with node := Function.update t.node i n }

def setNext (t : Table κ V) (i : ℕ) (next : Option ℕ) : Table κ V :=
  t.setNode i { t.node i with next := next }

def setKey (t : Table κ V) (i : ℕ) (key : κ) : Table κ V :=
  t.setNode i { t.node i with key := some key }

/-- The nodes of a loop that starts at `i` and goes on to `gnext`. No walk has more nodes than the
table, see `Linked.visited_succ`. -/
def chain (t : Table κ V) (i : ℕ) : List ℕ := visited (fun i => (t.node i).next) t.sizenode i

def setarrayvector (t : Table κ V) (size : ℕ) : Table κ V :=
  { t with array := t.array.take size ++ List.replicate (size - t.sizearray) none }

def setnodevector (t : Table κ V) (size : ℕ) : Except TableError (Table κ V) :=
  if size = 0 then
    .ok { t with node := fun _ => ⟨none, none, none⟩, lsizenode := 0, lastfree := 0, dummy := true }
  else
    let lsize := ceillog2 size
    if lsize > maxbits then .error .overflow
    else .ok { t with
      node := fun _ => ⟨none, none, none⟩
      lsizenode := lsize
      lastfree := 2 ^ lsize
      dummy := false }

/-- The loop of `getfreepos`: the last free node below `lastfree`. -/
def freeBelow (node : ℕ → Node κ V) : ℕ → Option ℕ × ℕ
  | 0 => (none, 0)
  | lastfree + 1 =>
      match (node lastfree).key with
      | none => (some lastfree, lastfree)
      | some _ => freeBelow node lastfree

def getfreepos (t : Table κ V) : Option ℕ × Table κ V :=
  let r := freeBelow t.node t.lastfree
  (r.1, { t with lastfree := r.2 })

end Table

open Table

def luaHNew {κ V : Type} (narray nhash : ℕ) : Except TableError (Table κ V) :=
  setnodevector (setarrayvector ⟨[], fun _ => ⟨none, none, none⟩, 0, 0, true⟩ narray) nhash

def lmod (s size : ℕ) : ℕ := s &&& (size - 1)

def hashmod (size n : ℕ) : ℕ := n % ((size - 1) ||| 1)

section Search

variable {K S O V : Type} [Field K] [LinearOrder K] (hs : Hashes K S O)

def hashnum (size : ℕ) (n : K) : ℕ := if n = 0 then 0 else hashmod size (hs.ints n)

def mainposition (size : ℕ) : Key K S O → ℕ
  | .number n => hashnum hs size n
  | .string ts => lmod (hs.hash ts) size
  | .boolean b => lmod b.toNat size
  | .object o => hashmod size (hs.address o)

variable [FloorRing K]

/-- A number that is no int becomes some int. -/
def number2int (n : K) : ℤ := (BitVec.ofInt 32 ⌊n⌋).toInt

def arrayindex : Key K S O → ℤ
  | .number n =>
      let k := number2int n
      if (k : K) = n then k else -1
  | _ => -1

variable [DecidableEq S] [DecidableEq O]

def findKey (t : Table (Key K S O) V) (start : ℕ) (key : Key K S O) : Option Slot :=
  ((t.chain start).find? fun n => (t.node n).key = some key).map .node

def luaHGetnum (t : Table (Key K S O) V) (key : ℤ) : Option Slot :=
  if 1 ≤ key ∧ key ≤ t.sizearray then some (.array (key - 1).toNat)
  else findKey t (hashnum hs t.sizenode (key : K)) (.number key)

def luaHGetstr (t : Table (Key K S O) V) (key : S) : Option Slot :=
  findKey t (lmod (hs.hash key) t.sizenode) (.string key)

/-- Nothing stands for `luaO_nilobject`. -/
def luaHGet (t : Table (Key K S O) V) (key : Key K S O) : Option Slot :=
  match key with
  | .string ts => luaHGetstr hs t ts
  | .number n =>
      let k := number2int n
      if (k : K) = n then luaHGetnum hs t k
      else findKey t (mainposition hs t.sizenode key) key
  | key => findKey t (mainposition hs t.sizenode key) key

def get (t : Table (Key K S O) V) (key : Key K S O) : Option V := (luaHGet hs t key).bind t.read

/-- `nil` begins a traversal. The test for a dead key is left out: only a collection makes a key dead,
and none runs here. -/
def findindex (t : Table (Key K S O) V) : Option (Key K S O) → Except TableError ℤ
  | none => .ok (-1)
  | some key =>
      let i := arrayindex key
      if 0 < i ∧ i ≤ t.sizearray then .ok (i - 1)
      else
        match (t.chain (mainposition hs t.sizenode key)).find? fun n =>
            (t.node n).key = some key with
        | some n => .ok (n + t.sizearray)
        | none => .error .invalidKey

def nextSlice : List (Option V) → ℕ → Option (ℕ × V)
  | [], _ => none
  | none :: rest, i => nextSlice rest (i + 1)
  | some v :: _, i => some (i, v)

def nextNode {κ : Type} (node : ℕ → Node κ V) : ℕ → ℕ → Option (Option κ × V)
  | 0, _ => none
  | n + 1, i =>
      match (node i).val with
      | none => nextNode node n (i + 1)
      | some v => some ((node i).key, v)

def luaHNext (t : Table (Key K S O) V) (key : Option (Key K S O)) :
    Except TableError (Option (Option (Key K S O) × V)) := do
  let i ← findindex hs t key
  let i := (i + 1).toNat
  match nextSlice (t.array.drop i) i with
  | some (i, v) => return some (some (.number ((i : K) + 1)), v)
  | none =>
      let i := max i t.sizearray - t.sizearray
      return nextNode t.node (t.sizenode - i) i

/-- The binary search of `luaH_getn` and of `unbound_search`, for a boundary between `i` and `j`. -/
def bisect (present : ℕ → Bool) (i j : ℕ) : ℕ :=
  if 1 < j - i then
    let m := (i + j) / 2
    if present m then bisect present m j else bisect present i m
  else i
termination_by j - i

def maxInt : ℕ := 2 ^ 31 - 1 - 2

def hasnum (t : Table (Key K S O) V) (j : ℕ) : Bool := ((luaHGetnum hs t j).bind t.read).isSome

/-- The first loop of `unbound_search`. Nothing is returned where `j` would become too large; the
number of rounds is more than it takes to double an index up to there. -/
def unboundLoop (t : Table (Key K S O) V) : ℕ → ℕ → ℕ → Option (ℕ × ℕ)
  | 0, _, _ => none
  | rounds + 1, i, j =>
      if hasnum hs t j then
        if j * 2 > maxInt then none else unboundLoop t rounds j (j * 2)
      else some (i, j)

/-- The linear search of `unbound_search`, for as many numbers as a table has places. -/
def linearSearch (t : Table (Key K S O) V) : ℕ → ℕ → Except TableError ℕ
  | 0, _ => .error .depth
  | places + 1, i => if hasnum hs t i then linearSearch t places (i + 1) else .ok (i - 1)

def unboundSearch (t : Table (Key K S O) V) (j : ℕ) : Except TableError ℕ :=
  match unboundLoop hs t 32 j (j + 1) with
  | some (i, j) => .ok (bisect (hasnum hs t) i j)
  | none => linearSearch hs t (t.sizearray + t.sizenode + 1) 1

def luaHGetn (t : Table (Key K S O) V) : Except TableError ℕ :=
  let j := t.sizearray
  if 0 < j ∧ (t.array[j - 1]?).join = none then
    .ok (bisect (fun m => (t.array[m - 1]?).join.isSome) 0 j)
  else if t.dummy then .ok j
  else unboundSearch hs t j

/-- `newkey`, where `grow` is what it does with a table that has no free node. -/
def openNewkey
    (grow : Table (Key K S O) V → Key K S O → Except TableError (Slot × Table (Key K S O) V))
    (t : Table (Key K S O) V) (key : Key K S O) : Except TableError (Slot × Table (Key K S O) V) :=
  let mp := mainposition hs t.sizenode key
  if (t.node mp).val.isSome ∨ t.dummy then
    match getfreepos t with
    | (none, t) => grow t key
    | (some n, t) =>
        match (t.node mp).key with
        | none => .error .invalid
        | some other =>
            let othern := mainposition hs t.sizenode other
            if othern ≠ mp then
              match (t.chain othern).find? fun p => (t.node p).next = some mp with
              | none => .error .invalid
              | some p =>
                  let t := t.setNext p (some n)
                  let t := t.setNode n (t.node mp)
                  let t := t.setNode mp { t.node mp with next := none, val := none }
                  .ok (.node mp, t.setKey mp key)
            else
              let t := t.setNext n (t.node mp).next
              let t := t.setNext mp (some n)
              .ok (.node n, t.setKey n key)
  else .ok (.node mp, t.setKey mp key)

section Set

variable
  (newkey : Table (Key K S O) V → Key K S O → Except TableError (Slot × Table (Key K S O) V))

/-- `luaH_set` -/
def setWith (t : Table (Key K S O) V) (key : Key K S O) :
    Except TableError (Slot × Table (Key K S O) V) :=
  match luaHGet hs t key with
  | some p => .ok (p, t)
  | none => newkey t key

/-- `luaH_setnum` -/
def setnumWith (t : Table (Key K S O) V) (key : ℤ) :
    Except TableError (Slot × Table (Key K S O) V) :=
  match luaHGetnum hs t key with
  | some p => .ok (p, t)
  | none => newkey t (.number key)

def reinsertSlice : List (Option V) → ℕ → Table (Key K S O) V →
    Except TableError (Table (Key K S O) V)
  | [], _, t => .ok t
  | none :: rest, i, t => reinsertSlice rest (i + 1) t
  | some v :: rest, i, t => do
      let (p, t) ← setnumWith hs newkey t ((i : ℤ) + 1)
      reinsertSlice rest (i + 1) (t.write p (some v))

def reinsertNodes (nold : ℕ → Node (Key K S O) V) : ℕ → Table (Key K S O) V →
    Except TableError (Table (Key K S O) V)
  | 0, t => .ok t
  | i + 1, t =>
      match (nold i).val, (nold i).key with
      | none, _ => reinsertNodes nold i t
      | some _, none => .error .invalid
      | some v, some key => do
          let (p, t) ← setWith hs newkey t key
          reinsertNodes nold i (t.write p (some v))

def resize (t : Table (Key K S O) V) (nasize nhsize : ℕ) :
    Except TableError (Table (Key K S O) V) := do
  let array := t.array
  let nold := t.node
  let oldhsize := t.sizenode
  let t := if nasize > array.length then t.setarrayvector nasize else t
  let t ← t.setnodevector nhsize
  let t ←
    if nasize < array.length then
      reinsertSlice hs newkey (array.drop nasize) nasize { t with array := array.take nasize }
    else pure t
  reinsertNodes hs newkey nold oldhsize t

end Set

end Search

def computesizesLoop (nums : ℕ → ℕ) (narray : ℕ) : ℕ → ℕ → ℕ → ℕ → ℕ → Option (ℕ × ℕ)
  | 0, _, _, _, _ => none
  | fuel + 1, i, a, na, n =>
      let twotoi := 2 ^ i
      if twotoi / 2 < narray then
        let r :=
          if 0 < nums i then
            let a := a + nums i
            if twotoi / 2 < a then (a, a, twotoi) else (a, na, n)
          else (a, na, n)
        if r.1 = narray then some (r.2.1, r.2.2)
        else computesizesLoop nums narray fuel (i + 1) r.1 r.2.1 r.2.2
      else some (na, n)

/-- The number of elements that go to the array part, and its size. Nothing is returned if the loop
gets past `nums`. -/
def computesizes (nums : ℕ → ℕ) (narray : ℕ) : Option (ℕ × ℕ) :=
  computesizesLoop nums narray (maxbits + 1) 0 0 0 0

section Count

variable {K S O V : Type} [Field K] [LinearOrder K] [FloorRing K]

def countint (key : Key K S O) (nums : ℕ → ℕ) : ℕ × (ℕ → ℕ) :=
  let k := arrayindex key
  if 0 < k ∧ k ≤ maxasize then
    let lg := ceillog2 k.toNat
    (1, Function.update nums lg (nums lg + 1))
  else (0, nums)

def numusearrayLoop (array : List (Option V)) : ℕ → ℕ → ℕ → ℕ → (ℕ → ℕ) → ℕ × (ℕ → ℕ)
  | 0, _, _, ause, nums => (ause, nums)
  | slices + 1, lg, i, ause, nums =>
      let ttlg := 2 ^ lg
      let lim := min ttlg array.length
      if array.length < ttlg ∧ lim < i then (ause, nums)
      else
        let lc := ((array.take lim).drop (i - 1)).countP Option.isSome
        numusearrayLoop array slices (lg + 1) (max i (lim + 1)) (ause + lc)
          (Function.update nums lg (nums lg + lc))

def numusearray (t : Table (Key K S O) V) (nums : ℕ → ℕ) : ℕ × (ℕ → ℕ) :=
  numusearrayLoop t.array (maxbits + 1) 0 1 0 nums

def numusehashLoop (node : ℕ → Node (Key K S O) V) : ℕ → ℕ → ℕ → (ℕ → ℕ) → ℕ × ℕ × (ℕ → ℕ)
  | 0, totaluse, ause, nums => (totaluse, ause, nums)
  | i + 1, totaluse, ause, nums =>
      match (node i).val, (node i).key with
      | some _, some key =>
          let (c, nums) := countint key nums
          numusehashLoop node i (totaluse + 1) (ause + c) nums
      | some _, none => numusehashLoop node i (totaluse + 1) ause nums
      | none, _ => numusehashLoop node i totaluse ause nums

def numusehash (t : Table (Key K S O) V) (nums : ℕ → ℕ) : ℕ × ℕ × (ℕ → ℕ) :=
  numusehashLoop t.node t.sizenode 0 0 nums

variable [DecidableEq S] [DecidableEq O] (hs : Hashes K S O)

/-- The sizes that `rehash` gives to the array part and the hash part. -/
def newSizes (t : Table (Key K S O) V) (ek : Key K S O) : Option (ℕ × ℕ) :=
  let (nasize, nums) := numusearray t fun _ => 0
  let totaluse := nasize
  let (used, ause, nums) := numusehash t nums
  let (totaluse, nasize) := (totaluse + used, nasize + ause)
  let (c, nums) := countint ek nums
  let (nasize, totaluse) := (nasize + c, totaluse + 1)
  (computesizes nums nasize).map fun (na, nasize) => (nasize, totaluse - na)

def rehash (newkey : Table (Key K S O) V → Key K S O →
      Except TableError (Slot × Table (Key K S O) V))
    (t : Table (Key K S O) V) (ek : Key K S O) : Except TableError (Table (Key K S O) V) :=
  match newSizes t ek with
  | none => .error .invalid
  | some (nasize, nhsize) => resize hs newkey t nasize nhsize

def newkey : ℕ → Table (Key K S O) V → Key K S O →
    Except TableError (Slot × Table (Key K S O) V)
  | 0, _, _ => .error .depth
  | fuel + 1, t, key => openNewkey hs (fun t key => do
      let t ← rehash hs (newkey fuel) t key
      setWith hs (newkey fuel) t key) t key

def luaHSet (fuel : ℕ) (t : Table (Key K S O) V) (key : Key K S O) :
    Except TableError (Slot × Table (Key K S O) V) := setWith hs (newkey hs fuel) t key

def luaHSetnum (fuel : ℕ) (t : Table (Key K S O) V) (key : ℤ) :
    Except TableError (Slot × Table (Key K S O) V) := setnumWith hs (newkey hs fuel) t key

/-- `t[key] = v`, where `v` may be `nil`. -/
def assign (fuel : ℕ) (t : Table (Key K S O) V) (key : Key K S O) (v : Option V) :
    Except TableError (Table (Key K S O) V) := do
  let (p, t) ← luaHSet hs fuel t key
  return t.write p v

end Count

end SoftRenderer.Ltable
