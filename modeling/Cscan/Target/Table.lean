import Cscan.Lib.ByteOrder

/-! Target tables: the record that `target.c` searches, the file that `compile-targets.py` writes and
`load_range_cfg` reads, and the random numbers of `rand.c`. -/

namespace Cscan.Target

open Cscan.Lib

/-- `struct range_cfg`. `ranges` holds pairs of the last address of a range and the number of
addresses up to there less one. For ports it holds pairs of a port and the distribution points up to
there less one. -/
structure RangeCfg where
  num : Int
  maxIdx : UInt32
  mask : UInt32
  ranges : List UInt32
deriving DecidableEq, Repr

/-! ### `compile-targets.py` -/

def binmaskLoop : Nat → Int → Int → Int
  | 0, mask, _ => mask
  | fuel + 1, mask, num => if mask < num then binmaskLoop fuel (mask * 2) num else mask

/-- The smallest power of two from 1 on that is at least `num`, less one. -/
def getBinmask (num : Int) : Int := binmaskLoop num.toNat 1 num - 1

/-- The loop over the merged ranges: the count of addresses and the list `range_data`, which holds
the last address of each range and the count so far less one. -/
def rangeData : Int → List (Int × Int) → Int × List Int
  | total, [] => (total, [])
  | total, (s, e) :: ranges =>
    let total := total + (e - s + 1)
    let (sum, data) := rangeData total ranges
    (sum, e :: (total - 1) :: data)

/-- `struct.pack('<I', v)`, which raises `struct.error` unless `v` fits in 32 bits. -/
def packWord (v : Int) : Option (List UInt8) :=
  if 0 ≤ v ∧ v < 2 ^ 32 then some (ByteOrder.little.encode 4 v.toNat) else none

def packWords : List Int → Option (List UInt8)
  | [] => some []
  | v :: vs => do
    let bytes ← packWord v
    let rest ← packWords vs
    pure (bytes ++ rest)

def tableWords (ranges : List (Int × Int)) : List Int :=
  let (total, data) := rangeData 0 ranges
  (ranges.length : Int) :: (total - 1) :: getBinmask total :: data

def compileTargets (ranges : List (Int × Int)) : Option (List UInt8) := packWords (tableWords ranges)

/-! ### `load_range_cfg` -/

/-- `freadle` of a word of `w` bytes: a machine whose order is big swaps the bytes that it loads. -/
def freadle (order : ByteOrder) (w : Nat) (file : List UInt8) : Option (Nat × List UInt8) :=
  if w ≤ file.length then
    let ptr := order.decode (file.take w)
    let ptr := if order = .big then ByteOrder.little.decode (order.encode w ptr) else ptr
    some (ptr, file.drop w)
  else none

/-- The loop that fills `ret->ranges` from index `i` on with `r` words. It ends early where the file
does; `none` is a store outside the allocated record. -/
def loadWords (order : ByteOrder) : Nat → Nat → List UInt32 → List UInt8 → Option (List UInt32)
  | 0, _, words, _ => some words
  | r + 1, i, words, file =>
    match freadle order 4 file with
    | none => some words
    | some (v, file) =>
      if i < words.length then loadWords order r (i + 1) (words.set i (UInt32.ofNat v)) file
      else none

/-- What `load_range_cfg` returns: `NULL`, a record, or nothing at all where it overflows a signed
`int` or stores outside the record. -/
inductive Loaded
  | null
  | record (cfg : RangeCfg)
  | undefined
deriving DecidableEq, Repr

def toInt32 (n : Nat) : Int := if n < 2 ^ 31 then n else (n : Int) - 2 ^ 32

/-- The argument of `malloc`: `sizeof(struct range_cfg) + num*2*sizeof(unsigned int)`, where `num*2`
is converted to `size_t`. -/
def allocSize (num : Int) : Nat := ((12 + num * 2 * 4) % 2 ^ 64).toNat

/-- A block of `size` bytes from `malloc`, whose words are `word` until they are stored to. -/
def freshRecord (size : Nat) (word : Nat → UInt32) : RangeCfg where
  num := toInt32 (word 0).toNat
  maxIdx := word 1
  mask := word 2
  ranges := (List.range ((size - 12) / 4)).map fun i => word (i + 3)

/-- `load_range_cfg` on a machine of byte order `order`. `file` is the content of the file, or `none`
if it cannot be opened, and `malloc` gives the words of a new block, or `none` if there is no memory.
Where the file ends early the record is returned as far as it was filled. What `fread` leaves in a word
that it has read in part is one of these words too. -/
def loadRangeCfg (order : ByteOrder) (malloc : Nat → Option (Nat → UInt32))
    (file : Option (List UInt8)) : Loaded :=
  match file with
  | none => .null
  | some file =>
    match freadle order 4 file with
    | none => .null
    | some (n, file) =>
      let num := toInt32 n
      if num * 2 < -2 ^ 31 ∨ 2 ^ 31 ≤ num * 2 then .undefined
      else
        match malloc (allocSize num) with
        | none => .null
        | some word =>
          if allocSize num < 4 then .undefined
          else
            let ret := { freshRecord (allocSize num) word with num := num }
            match freadle order 4 file with
            | none => .record ret
            | some (m, file) =>
              if allocSize num < 8 then .undefined
              else
                let ret := { ret with maxIdx := UInt32.ofNat m }
                match freadle order 4 file with
                | none => .record ret
                | some (k, file) =>
                  if allocSize num < 12 then .undefined
                  else
                    let ret := { ret with mask := UInt32.ofNat k }
                    match loadWords order (num * 2).toNat 0 ret.ranges file with
                    | none => .undefined
                    | some words => .record { ret with ranges := words }

/-! ### `gen_rand32` and `random_ip` -/

/-- The loop of `gen_rand32` over the words that `/dev/urandom` delivers: the first one that is at
most `max` under `mask`, and the words after it. -/
def randLoop (mask max : UInt32) : List UInt32 → Option (UInt32 × List UInt32)
  | [] => none
  | ret :: words => if max < ret &&& mask then randLoop mask max words else some (ret &&& mask, words)

/-- `gen_rand32`, where `urandom` is the words that `/dev/urandom` delivers, or `none` if it cannot be
opened, when the result is `-1`. -/
def genRand32 (mask max : UInt32) :
    Option (List UInt32) → Option (UInt32 × Option (List UInt32))
  | none => some (0xFFFFFFFF, none)
  | some words => (randLoop mask max words).map fun (ret, rest) => (ret, some rest)

/-- The binary search of `random_ip`, for at most `fuel` turns: the index where it ends and the value
there. A read outside of `ranges` gives `none`. -/
def searchLoop (ranges : List UInt32) (r : UInt32) :
    Nat → UInt32 → UInt32 → UInt32 → UInt32 → Option (UInt32 × UInt32)
  | 0, _, _, _, _ => none
  | fuel + 1, start, stop, idx, val =>
    if start = stop then some (idx, val)
    else
      let idx := (stop + start) >>> 1
      match ranges[((idx <<< 1) ||| 1).toNat]? with
      | none => none
      | some val =>
        if val = r then some (idx, val)
        else if val < r then
          if idx = stop - 1 then
            -- can't be <, but > is ok
            let idx := idx + 1
            match ranges[((idx <<< 1) ||| 1).toNat]? with
            | none => none
            | some val => some (idx, val)
          else searchLoop ranges r fuel (idx + 1) stop idx val
        else searchLoop ranges r fuel start idx idx val

/-- The rest of `random_ip` once `r` is drawn. Every turn of the search narrows the interval, so one
turn more than its length is enough. -/
def lookup (cfg : RangeCfg) (r : UInt32) : Option UInt32 :=
  let stop := UInt32.ofNat (cfg.num % 2 ^ 32).toNat
  match searchLoop cfg.ranges r (stop.toNat + 1) 0 stop 0 0 with
  | none => none
  | some (idx, val) => (cfg.ranges[(idx <<< 1).toNat]?).map fun last => last - val + r

/-- `random_ip`: the address drawn and the random words left over. -/
def randomIp (cfg : RangeCfg) (urandom : Option (List UInt32)) :
    Option (UInt32 × Option (List UInt32)) :=
  match genRand32 cfg.mask cfg.maxIdx urandom with
  | none => none
  | some (r, rest) => (lookup cfg r).map fun ip => (ip, rest)

/-- The loop of `random_port` from index `idx` on, over the pairs that are left. -/
def portLoop (ranges : List UInt32) (r : UInt32) : Nat → Nat → Option Int
  | 0, _ => some (-1)
  | left + 1, idx =>
    match ranges[2 * idx + 1]? with
    | none => none
    | some cum =>
      if r ≤ cum then (ranges[2 * idx]?).map fun port => toInt32 port.toNat
      else portLoop ranges r left (idx + 1)

def randomPort (cfg : RangeCfg) (urandom : Option (List UInt32)) :
    Option (Int × Option (List UInt32)) :=
  match genRand32 cfg.mask cfg.maxIdx urandom with
  | none => none
  | some (r, rest) => (portLoop cfg.ranges r cfg.num.toNat 0).map fun port => (port, rest)

end Cscan.Target
