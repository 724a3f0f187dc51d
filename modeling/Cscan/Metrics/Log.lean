import Cscan.Lib.ByteOrder
import Mathlib.Data.List.Basic

/-! The calls of `metrics.c`, the file that they write, and what is left of it when the last bytes are missing. -/

namespace Cscan.Metrics

open Cscan.Lib

/-- `fwrite` of an `unsigned long long`. -/
def word64 (order : ByteOrder) (n : UInt64) : List UInt8 := order.encode 8 n.toNat

/-- `fwrite` of an `int`. -/
def word32 (order : ByteOrder) (n : Int32) : List UInt8 := order.encodeInt 4 n.toInt

/-- `fwrite` of a `char`. -/
def word8 (order : ByteOrder) (n : Int8) : List UInt8 := order.encodeInt 1 n.toInt

/-- `int delta = time-start`. -/
def elapsed (time start : UInt64) : Int32 := ⟨(time - start).toUInt32⟩

section Mev

variable (order : ByteOrder)

def metricsPrepare (connectTimeout : Int32) : List UInt8 := word32 order connectTimeout

def mevPacket (time : UInt64) (fd : Int32) : List UInt8 :=
  0xe0 :: (word64 order time ++ word32 order fd)

def mevEpoll (time : UInt64) (returned timeout : Int32) : List UInt8 :=
  0xe1 :: (word64 order time ++ (word32 order returned ++ word32 order timeout))

def mevRet (time start : UInt64) (kind : Int8) : List UInt8 :=
  0xe2 :: (word64 order time ++ (word32 order (elapsed time start) ++ word8 order kind))

def mevDelta (time start : UInt64) : List UInt8 :=
  0xe3 :: (word64 order time ++ word32 order (elapsed time start))

def mevSendinfo (time start : UInt64) (sendCount : Int32) : List UInt8 :=
  0xe4 :: (word64 order time ++ (word32 order (elapsed time start) ++ word32 order sendCount))

def mevDelinfo (time start : UInt64) (delCount : Int32) : List UInt8 :=
  0xe5 :: (word64 order time ++ (word32 order (elapsed time start) ++ word32 order delCount))

end Mev

inductive Call
  | packet (time : UInt64) (fd : Int32)
  | epoll (time : UInt64) (returned timeout : Int32)
  | ret (time start : UInt64) (kind : Int8)
  | delta (time start : UInt64)
  | sendinfo (time start : UInt64) (sendCount : Int32)
  | delinfo (time start : UInt64) (delCount : Int32)
deriving DecidableEq

namespace Call

def bytes (order : ByteOrder) : Call → List UInt8
  | packet time fd => mevPacket order time fd
  | epoll time returned timeout => mevEpoll order time returned timeout
  | ret time start kind => mevRet order time start kind
  | delta time start => mevDelta order time start
  | sendinfo time start sendCount => mevSendinfo order time start sendCount
  | delinfo time start delCount => mevDelinfo order time start delCount

/-- The length of the record. -/
def size : Call → Nat
  | packet .. => 13
  | epoll .. => 17
  | ret .. => 14
  | delta .. => 13
  | sendinfo .. => 17
  | delinfo .. => 17

def time : Call → UInt64
  | packet time _ => time
  | epoll time _ _ => time
  | ret time _ _ => time
  | delta time _ => time
  | sendinfo time _ _ => time
  | delinfo time _ _ => time

/-- The `kind` of a `mev_ret`. -/
def kind? : Call → Option Int
  | ret _ _ kind => some kind.toInt
  | _ => none

end Call

/-- The file that `metrics_prepare` and the calls leave. -/
def log (order : ByteOrder) (connectTimeout : Int32) (calls : List Call) : List UInt8 :=
  metricsPrepare order connectTimeout ++ calls.flatMap (Call.bytes order)

/-- The calls whose records are complete in the first `n` bytes of the records. -/
def complete : List Call → Nat → List Call
  | [], _ => []
  | c :: calls, n => if c.size ≤ n then c :: complete calls (n - c.size) else []

/-- How many bytes there are of the record behind these. -/
def torn : List Call → Nat → Nat
  | [], _ => 0
  | c :: calls, n => if c.size ≤ n then torn calls (n - c.size) else n

@[simp] theorem length_word64 (order : ByteOrder) (n : UInt64) : (word64 order n).length = 8 :=
  ByteOrder.length_encode order 8 _

@[simp] theorem length_word32 (order : ByteOrder) (n : Int32) : (word32 order n).length = 4 :=
  ByteOrder.length_encodeInt order 4 _

@[simp] theorem length_word8 (order : ByteOrder) (n : Int8) : (word8 order n).length = 1 :=
  ByteOrder.length_encodeInt order 1 _

theorem Call.length_bytes (order : ByteOrder) (c : Call) : (c.bytes order).length = c.size := by
  cases c <;> simp [bytes, size, mevPacket, mevEpoll, mevRet, mevDelta, mevSendinfo, mevDelinfo]

/-- The first bytes of the records are complete records and a part of another one. -/
theorem take_records (order : ByteOrder) (calls : List Call) (n : Nat) :
    ∃ rest, (calls.flatMap (Call.bytes order)).take n = (complete calls n).flatMap (Call.bytes order) ++ rest ∧
      (rest = [] ∧ torn calls n = 0 ∨
        ∃ c : Call, torn calls n < c.size ∧ rest = (c.bytes order).take (torn calls n)) := by
  induction calls generalizing n with
  | nil => exact ⟨[], by simp [complete], Or.inl ⟨rfl, rfl⟩⟩
  | cons c calls ih =>
    have hlength := c.length_bytes order
    rw [List.flatMap_cons, complete, torn]
    by_cases h : c.size ≤ n
    · obtain ⟨rest, hrest, hcases⟩ := ih (n - c.size)
      rw [if_pos h, if_pos h]
      refine ⟨rest, ?_, hcases⟩
      rw [List.take_append, List.take_of_length_le (by omega), hlength, hrest, List.flatMap_cons,
        List.append_assoc]
    · rw [if_neg h, if_neg h]
      refine ⟨(c.bytes order).take n, ?_, Or.inr ⟨c, by omega, rfl⟩⟩
      rw [List.take_append_of_le_length (by omega), List.flatMap_nil, List.nil_append]

end Cscan.Metrics
