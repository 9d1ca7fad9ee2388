import FzzOverlay.Entry
import FzzOverlay.Lib.CString
import FzzOverlay.Lib.SearchTree

/-!
# Reading a merged directory

`ovl_dir_read_merged` of `readdir.c` and what it calls. A cache entry is allocated on
`heap`, where pointers are indices; `root` is the tree of the entries of all layers but
the lowest, and `middle` and `list` are the two parts of the list, before and behind the
place where the entries of the lowest layer go. Allocations succeed, and so do the
lookups that tell whiteouts from other devices. The rebalancing of the tree is an
argument.
-/

namespace FzzOverlay

open CString SearchTree

/-- What a filesystem passes to the actor for one entry. -/
structure DirEnt where
  name : List UInt8
  ino : ℕ
  dType : ℕ

def DT_CHR : ℕ := 2

/-- A real directory: whether it opens, what each call of `iterate_dir` emits and
returns, which of its names are whiteouts, and whether its lock is obtained. -/
structure RealDir where
  openFails : Option Errno
  reads : List (List DirEnt × Option Errno)
  whiteout : List UInt8 → Bool
  lockFails : Option Errno

/-- `struct ovl_cache_entry`. -/
structure CacheEntry where
  name : List UInt8
  type : ℕ
  realIno : ℕ
  ino : ℕ
  isUpper : Bool
  isWhiteout : Bool
  deriving DecidableEq, Inhabited

/-- The members of `struct ovl_readdir_data` that are fixed for a layer, and what
`ovl_calc_d_ino` looks at. -/
structure RddCtx where
  isUpper : Bool
  isLowest : Bool
  xino : Bool
  impure : Bool

/-- The members of `struct ovl_readdir_data` that change. -/
structure Rdd where
  heap : List CacheEntry
  root : BinaryTree ℕ
  middle : List ℕ
  list : List ℕ
  firstMaybeWhiteout : List ℕ

def Rdd.entry (rdd : Rdd) (p : ℕ) : CacheEntry := rdd.heap.getD p default

/-- The comparison of the two search loops: `tmp` is the node at hand. -/
def cmpEntry (rdd : Rdd) (name : List UInt8) (p : ℕ) : Ordering :=
  let tmp := rdd.entry p
  let cmp := strncmp name.length name tmp.name
  if cmp > 0 then .gt
  else if cmp < 0 ∨ name.length < tmp.name.length then .lt
  else .eq

/-- `ovl_cache_entry_find`, and `ovl_cache_entry_find_link` as far as it tells whether
there is an entry. -/
def ovlCacheEntryFind (rdd : Rdd) (name : List UInt8) : Option ℕ :=
  find (cmpEntry rdd name) rdd.root

/-- `ovl_calc_d_ino` when an overlay directory is read. -/
def ovlCalcDIno (ctx : RddCtx) (name : List UInt8) : Bool :=
  if ctx.xino then true
  else if name = [46, 46] then true
  else if !ctx.isUpper then false
  else if name = [46] ∨ ctx.impure then true
  else false

/-- The entry that `ovl_cache_entry_new` fills in. -/
def newEntry (ctx : RddCtx) (e : DirEnt) : CacheEntry where
  name := e.name
  type := e.dType
  realIno := e.ino
  ino := if ovlCalcDIno ctx e.name then 0 else e.ino
  isUpper := ctx.isUpper
  isWhiteout := false

/-- `ovl_cache_entry_new`: the pointer is the length of the heap before. -/
def ovlCacheEntryNew (ctx : RddCtx) (rdd : Rdd) (e : DirEnt) : Rdd :=
  { rdd with
    heap := rdd.heap ++ [newEntry ctx e]
    firstMaybeWhiteout :=
      if e.dType = DT_CHR then rdd.heap.length :: rdd.firstMaybeWhiteout
      else rdd.firstMaybeWhiteout }

section Reading

variable (rbInsertColor : BinaryTree ℕ → BinaryTree ℕ)

/-- `ovl_cache_entry_add_rb`. -/
def ovlCacheEntryAddRb (ctx : RddCtx) (rdd : Rdd) (e : DirEnt) : Rdd :=
  match ovlCacheEntryFind rdd e.name with
  | some _ => rdd
  | none =>
    let p := rdd.heap.length
    { ovlCacheEntryNew ctx rdd e with
      list := rdd.list ++ [p]
      root := rbInsertColor (link (cmpEntry rdd e.name) p rdd.root) }

/-- `ovl_fill_lowest`. -/
def ovlFillLowest (ctx : RddCtx) (rdd : Rdd) (e : DirEnt) : Rdd :=
  match ovlCacheEntryFind rdd e.name with
  | some p => { rdd with middle := rdd.middle.erase p ++ [p], list := rdd.list.erase p }
  | none =>
    { ovlCacheEntryNew ctx rdd e with middle := rdd.middle ++ [rdd.heap.length] }

/-- `ovl_fill_merge`. -/
def ovlFillMerge (ctx : RddCtx) (rdd : Rdd) (e : DirEnt) : Rdd :=
  if !ctx.isLowest then ovlCacheEntryAddRb rbInsertColor ctx rdd e
  else ovlFillLowest ctx rdd e

/-- The loop of `ovl_check_whiteouts` over the entries that may be whiteouts. -/
def checkWhiteouts (dir : RealDir) (heap : List CacheEntry) (ps : List ℕ) :
    List CacheEntry :=
  ps.foldl (fun heap p =>
    heap.modify p fun e => { e with isWhiteout := dir.whiteout e.name }) heap

/-- `ovl_check_whiteouts`. -/
def ovlCheckWhiteouts (dir : RealDir) (rdd : Rdd) : ℤ × Rdd :=
  match dir.lockFails with
  | some e => (e.ret, rdd)
  | none =>
    (0, { rdd with
      heap := checkWhiteouts dir rdd.heap rdd.firstMaybeWhiteout
      firstMaybeWhiteout := [] })

/-- The `do` loop of `ovl_dir_read`: it ends with a call that emits nothing. -/
def iterateLoop (ctx : RddCtx) : List (List DirEnt × Option Errno) → Rdd → ℤ × Rdd
  | [], rdd => (0, rdd)
  | (es, err) :: reads, rdd =>
    let rdd := es.foldl (ovlFillMerge rbInsertColor ctx) rdd
    match err with
    | some e => (e.ret, rdd)
    | none => if es = [] then (0, rdd) else iterateLoop ctx reads rdd

/-- `ovl_dir_read`. -/
def ovlDirRead (ctx : RddCtx) (dir : RealDir) (rdd : Rdd) : ℤ × Rdd :=
  match dir.openFails with
  | some e => (e.ret, rdd)
  | none =>
    let r := iterateLoop rbInsertColor ctx dir.reads { rdd with firstMaybeWhiteout := [] }
    if r.1 = 0 ∧ r.2.firstMaybeWhiteout ≠ [] then ovlCheckWhiteouts dir r.2 else r

/-- The loop of `ovl_dir_read_merged` over the layers that `ovl_path_next` gives, with
`is_upper` for each. -/
def readLayers (xino impure : Bool) : List (RealDir × Bool) → Rdd → ℤ × Rdd
  | [], rdd => (0, rdd)
  | [(dir, up)], rdd => ovlDirRead rbInsertColor ⟨up, true, xino, impure⟩ dir rdd
  | (dir, up) :: layer :: layers, rdd =>
    let r := ovlDirRead rbInsertColor ⟨up, false, xino, impure⟩ dir rdd
    if r.1 ≠ 0 then r else readLayers xino impure (layer :: layers) r.2

end Reading

/-- A merged directory: the upper directory, if there is one, and the lower ones. -/
structure OvlDir where
  upper : Option RealDir
  lowers : List RealDir
  layers_ne : upper.isSome ∨ lowers ≠ []

/-- The layers from the top, as `ovl_path_next` goes through them. -/
def OvlDir.layers (d : OvlDir) : List (RealDir × Bool) :=
  (d.upper.map (·, true)).toList ++ d.lowers.map (·, false)

def emptyRdd : Rdd := ⟨[], .nil, [], [], []⟩

/-- `ovl_dir_read_merged` on an empty list: the return value and the list. -/
def ovlDirReadMerged (rbInsertColor : BinaryTree ℕ → BinaryTree ℕ) (xino impure : Bool)
    (d : OvlDir) : ℤ × List CacheEntry :=
  let r := readLayers rbInsertColor xino impure d.layers emptyRdd
  (r.1, (r.2.middle ++ r.2.list).map r.2.entry)

end FzzOverlay
