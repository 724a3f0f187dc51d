import Cscan.Cba.Format
import Cscan.Lib.Buffer

/-! The writer of CBA files in `cba.c`, for an open file. A call computes on the variables of its
thread, and gives the list of what it does to the file and to `fd_lock`, in order. A store outside of
`deferred_buffer` has no result. -/

namespace Cscan.Cba

open Cscan.Lib

def cbaMaxBuff : Nat := 32768
def cbaDeferBuff : Nat := 2048

/-- What a call does to what the threads share: a `do_write`, or a call on the mutex `fd_lock`. -/
inductive Action
  | write (buffer : List UInt8)
  | lock
  | unlock
deriving DecidableEq, Repr

/-- The thread-local variables. `buff` is left out, since every call that reads it has filled it. -/
structure Writer where
  threadId : UInt8
  nextCode : Int32
  deferredBuffer : List UInt8
  deferredBytes : Nat
deriving DecidableEq, Repr

namespace Writer

/-- The variables of a thread after `cba_thread_init(tid)`. -/
def init (tid : UInt8) : Writer := ⟨tid, 0, List.replicate cbaDeferBuff 0, 0⟩

/-- What `write_hdr_buff` stores: the thread, the type, and the code if one is set. -/
def hdrBuff (order : ByteOrder) (w : Writer) (type : Nat) : List UInt8 :=
  if w.nextCode = 0 then [w.threadId, UInt8.ofNat type]
  else w.threadId :: UInt8.ofNat (type ||| 0x80) :: order.encode 4 w.nextCode.toUInt32.toNat

/-- `write_hdr_buff` uses the code up. -/
def clearCode (w : Writer) : Writer := { w with nextCode := 0 }

def flush (w : Writer) : List Action × Writer :=
  (if w.deferredBytes = 0 then [] else [.write (w.deferredBuffer.take w.deferredBytes)],
    { w with deferredBytes := 0 })

/-- `pthread_mutex_lock`, a sequence of `do_write`, and `pthread_mutex_unlock`. -/
def locked (buffers : List (List UInt8)) : List Action :=
  .lock :: (buffers.map .write ++ [.unlock])

def head (order : ByteOrder) (w : Writer) (module : List UInt8) : Option (List Action × Writer) := do
  let len := module.length % 256
  let hdr := w.hdrBuff order cbaHead
  let buffer ← store w.deferredBuffer 0 hdr
  let buffer ← store buffer hdr.length [UInt8.ofNat module.length]
  let buffer ← store buffer (hdr.length + 1) (module.take len)
  pure ([], { w.clearCode with deferredBuffer := buffer, deferredBytes := hdr.length + 1 + len })

def code (w : Writer) (c : Int32) : List Action × Writer := ([], { w with nextCode := c })

/-- What `strlen` and `memcpy` see in `buff` after `vsnprintf` of the formatted text. -/
def formatted (text : List UInt8) : List UInt8 :=
  (text.take (cbaMaxBuff - 1)).takeWhile (· ≠ 0)

/-- `write_str_buff` into the deferred buffer. -/
def writeStrBuff (order : ByteOrder) (w : Writer) (text : List UInt8) :
    Option (List Action × Writer) := do
  let buff := formatted text
  let bufsize : Int := cbaDeferBuff - w.deferredBytes
  let hdr := w.hdrBuff order cbaStr
  let buffer ← store w.deferredBuffer w.deferredBytes hdr
  let pos := w.deferredBytes + hdr.length
  let length := if (buff.length : Int) ≥ bufsize - hdr.length - 6 then
      ((bufsize - hdr.length - 6 - 1) % 65536).toNat
    else buff.length
  let buffer ← store buffer (pos + length - 1) [0]
  let buffer ← store buffer pos (order.encode 2 length)
  let buffer ← store buffer (pos + 2) (buff.take length)
  pure ([], { w.clearCode with deferredBuffer := buffer, deferredBytes := pos + 2 + length })

/-- `write_str_buff` without a buffer. -/
def writeStr (order : ByteOrder) (w : Writer) (text : List UInt8) : List Action × Writer :=
  let buff := formatted text
  (locked [w.hdrBuff order cbaStr, order.encode 2 buff.length, buff], w.clearCode)

def deferStr (order : ByteOrder) (w : Writer) (text : List UInt8) : Option (List Action × Writer) :=
  if w.deferredBytes ≠ 0 then w.writeStrBuff order text else some (w.writeStr order text)

/-! ### The calls that flush what is deferred -/

def str (order : ByteOrder) (w : Writer) (text : List UInt8) : List Action × Writer :=
  let (flushed, w) := w.flush
  let (written, w) := w.writeStr order text
  (flushed ++ written, w)

/-- The loop of `cba_data`: the chunks, each with the first two bytes of the `int` that holds its
length. There are at most as many chunks as bytes, and then the empty one. -/
def dataLoop (order : ByteOrder) (tid : UInt8) : Nat → List UInt8 → List (List UInt8)
  | 0, _ => []
  | fuel + 1, rest =>
    let chunkLen := if rest.length > cbaMaxBuff then cbaMaxBuff else rest.length
    [tid] :: (order.encode 4 chunkLen).take 2 ::
      if chunkLen = 0 then []
      else rest.take chunkLen :: dataLoop order tid fuel (rest.drop chunkLen)

def data (order : ByteOrder) (w : Writer) (buffer : List UInt8) : List Action × Writer :=
  let (flushed, w) := w.flush
  (flushed ++ locked (w.hdrBuff order cbaData ::
    dataLoop order w.threadId (buffer.length + 1) buffer), w.clearCode)

/-- What a `read` into `buff` returns. -/
abbrev ReadResult : Type := { bytes : List UInt8 // bytes.length ≤ cbaMaxBuff }

/-- The loop of `cba_file`, where `reads` is what `read` returns before the end of the file or an
error. -/
def fileLoop (order : ByteOrder) (tid : UInt8) : List ReadResult → List (List UInt8)
  | [] => [[tid], order.encode 2 0]
  | buff :: reads =>
    [tid] :: order.encode 2 buff.1.length ::
      if buff.1.length = 0 then [] else buff.1 :: fileLoop order tid reads

def file (order : ByteOrder) (w : Writer) (name : List UInt8) (reads : List ReadResult) :
    List Action × Writer :=
  let (flushed, w) := w.flush
  let nameLen := name.length % 65536
  (flushed ++ locked (w.hdrBuff order cbaFile :: order.encode 2 nameLen :: name.take nameLen ::
    fileLoop order w.threadId reads), w.clearCode)

def int32 (order : ByteOrder) (w : Writer) (num : Int32) : List Action × Writer :=
  let (flushed, w) := w.flush
  (flushed ++ locked [w.hdrBuff order cbaInt32, order.encodeInt 4 num.toInt], w.clearCode)

def int64 (order : ByteOrder) (w : Writer) (num : Int64) : List Action × Writer :=
  let (flushed, w) := w.flush
  (flushed ++ locked [w.hdrBuff order cbaInt64, order.encodeInt 8 num.toInt], w.clearCode)

def bit (order : ByteOrder) (w : Writer) (c : Int32) : List Action × Writer :=
  let (_, w) := w.code c
  let (flushed, w) := w.flush
  (flushed ++ locked [w.hdrBuff order cbaBit], w.clearCode)

end Writer

/-- The calls of `cba.h` that log an event, with the formatted text where they take a format. A
`char *` is the list of the bytes in front of its `NUL`. -/
inductive Logged
  | str (text : List UInt8)
  | data (buffer : List UInt8)
  | file (name : List UInt8) (reads : List Writer.ReadResult)
  | int32 (num : Int32)
  | int64 (num : Int64)
  | bit (code : Int32)

inductive Call
  | head (module : List UInt8)
  | code (c : Int32)
  | deferStr (text : List UInt8)
  | log (event : Logged)

namespace Writer

def log (order : ByteOrder) (w : Writer) : Logged → List Action × Writer
  | .str text => w.str order text
  | .data buffer => w.data order buffer
  | .file name reads => w.file order name reads
  | .int32 num => w.int32 order num
  | .int64 num => w.int64 order num
  | .bit c => w.bit order c

def call (order : ByteOrder) (w : Writer) : Call → Option (List Action × Writer)
  | .head module => w.head order module
  | .code c => some (w.code c)
  | .deferStr text => w.deferStr order text
  | .log event => some (w.log order event)

def calls (order : ByteOrder) (w : Writer) : List Call → Option (List Action × Writer)
  | [] => some ([], w)
  | c :: cs => do
    let (actions, w) ← w.call order c
    let (more, w) ← w.calls order cs
    pure (actions ++ more, w)

end Writer

/-- The bytes that a list of actions appends to the file. -/
def written (actions : List Action) : List UInt8 :=
  actions.flatMap fun
    | .write buffer => buffer
    | _ => []

end Cscan.Cba
