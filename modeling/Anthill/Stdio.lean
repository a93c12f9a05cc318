import Anthill.Formatter

set_option autoImplicit false

namespace Anthill

open Bytes (Store)

def bufsiz : Nat := 512

def vfsMaxIounit : Nat := 100

def eof : Int := -1

def fOpen : BitVec 32 := 1 <<< 0
def fEof : BitVec 32 := 1 <<< 1
def fRead : BitVec 32 := 1 <<< 2
def fWrite : BitVec 32 := 1 <<< 3
def fAppend : BitVec 32 := 1 <<< 4
def fDir : BitVec 32 := 1 <<< 5

inductive Errno where
  | enomem
  | ebadf
  | eio
deriving DecidableEq, Repr

/-- A stream. Pointers are addresses, and 0 is the null pointer. -/
structure File where
  fid : BitVec 32
  flags : BitVec 32
  offset : BitVec 64
  buf : Nat
  rPos : Nat
  rEnd : Nat
  wPos : Nat
  wEnd : Nat

structure Twrite where
  tag : BitVec 16
  fid : BitVec 32
  offset : BitVec 64
  data : List (BitVec 8)

structure Tread where
  tag : BitVec 16
  fid : BitVec 32
  offset : BitVec 64
  count : Nat

/-- A process with one stream. `requests` counts its calls of malloc, `sent` has the messages that write its
bytes, and `accepted` the bytes that fputc and vfprintf have taken. -/
structure Stdio where
  file : File
  mem : Cells
  tagCount : BitVec 16
  requests : Nat
  errno : Option Errno
  sent : List Twrite
  accepted : List (BitVec 8)

/-- What answers a process: the pointers that malloc returns, one request after another, the count of each
Rwrite and the data of each Rread. `none` stands for an exchange that fails. -/
structure Host where
  malloc : Nat → Nat
  write : (t : Twrite) → Option (Fin (t.data.length + 1))
  read : Tread → Option (List (BitVec 8))

def File.has (f : File) (flag : BitVec 32) : Bool := f.flags &&& flag != 0

-- The cursors of a new buffer, for the directions in which the stream is open.
def File.attach (f : File) (buf : Nat) : File :=
  { f with
    buf := buf
    rPos := if f.has fRead then buf else f.rPos
    rEnd := if f.has fRead then buf else f.rEnd
    wPos := if f.has fWrite then buf else f.wPos
    wEnd := if f.has fWrite then buf + bufsiz else f.wEnd }

def fileAlloc (host : Host) (s : Stdio) : Bool × Stdio :=
  let buf := host.malloc s.requests
  let s := { s with requests := s.requests + 1 }
  if buf = 0 then (false, { s with file := { s.file with buf := 0 }, errno := some .enomem })
  else (true, { s with file := s.file.attach buf })

-- if (!stream->buf) file_alloc(stream)
def needBuf (host : Host) (s : Stdio) : Bool × Stdio :=
  if s.file.buf = 0 then fileAlloc host s else (true, s)

-- The loop of file_write, which takes at most `remaining` turns. `.error` is a return from within it.
def writeLoop (host : Host) : Nat → Nat → Nat → Stdio → Except (Nat × Stdio) (Nat × Stdio)
  | 0, _, bytesSent, s => .ok (bytesSent, s)
  | fuel + 1, remaining, bytesSent, s =>
    if remaining = 0 then .ok (bytesSent, s)
    else
      let count := min remaining vfsMaxIounit
      let t : Twrite := ⟨s.tagCount, s.file.fid, s.file.offset + BitVec.ofNat 64 bytesSent,
        s.mem.bytes.bytes s.file.buf count⟩
      let s := { s with tagCount := s.tagCount + 1 }
      match host.write t with
      | none => .error (bytesSent, { s with errno := some .eio })
      | some written =>
        let bytesSent := bytesSent + written.val
        let s := { s with
          file := { s.file with offset := s.file.offset + BitVec.ofNat 64 bytesSent }
          sent := s.sent ++ [{ t with data := t.data.take written.val }] }
        if written.val < count then .error (bytesSent, { s with errno := some .eio })
        else writeLoop host fuel (remaining - count) bytesSent s

-- Cursors are subtracted in 32 bits.
def fileWrite (host : Host) (s : Stdio) : Int × Stdio :=
  let bufFill := ((s.file.wEnd : Int) - s.file.wPos) % intModulus
  if !s.file.has (fWrite ||| fOpen) then (eof, { s with errno := some .ebadf })
  else if s.file.buf = 0 ∨ bufFill = 0 then (0, s)
  else
    let remaining := (((s.file.wPos : Int) - s.file.buf) % intModulus).toNat
    match writeLoop host remaining remaining 0 s with
    | .error (bytesSent, s) => (bytesSent, s)
    | .ok (bytesSent, s) =>
      let f := if s.file.has fAppend then { s.file with offset := -1 } else s.file
      (bytesSent, { s with file := { f with wPos := f.buf } })

def fflush (host : Host) (s : Stdio) : Int × Stdio :=
  if !s.file.has (fOpen ||| fWrite) then (eof, { s with errno := some .ebadf })
  else fileWrite host s

def fputc (host : Host) (c : BitVec 32) (s : Stdio) : Int × Stdio :=
  match needBuf host s with
  | (false, s) => (eof, s)
  | (true, s) =>
    if s.file.buf = s.file.wEnd then (eof, { s with errno := some .eio })
    else
      (c.toInt, { s with
        mem := s.mem.store s.file.wPos (c.setWidth 8)
        file := { s.file with wPos := s.file.wPos + 1 }
        accepted := s.accepted ++ [c.setWidth 8] })

-- The bytes that `ptr` leads to, one fputc for each.
def putBytes (host : Host) (s : Stdio) (bs : List (BitVec 8)) : Stdio :=
  bs.foldl (fun s b => (fputc host (b.setWidth 32) s).2) s

def fwrite (host : Host) (ptr : Store) (size nitems : Nat) (s : Stdio) : Nat × Stdio :=
  if size = 0 ∨ nitems = 0 then (0, s)
  else (nitems, (List.range nitems).foldl (fun s i => putBytes host s (ptr.bytes (i * size) size)) s)

def vfprintf (host : Host) (text : BitVec 64 → List (BitVec 8)) (format : List (BitVec 8)) (args : List (BitVec 64))
    (s : Stdio) : Int × Stdio :=
  match needBuf host s with
  | (false, s) => (eof, s)
  | (true, s) =>
    let n := ((s.file.wEnd : Int) - s.file.wPos).bmod intModulus
    let (res, mem) := formatter s.mem text s.file.wPos format args n
    let s := { s with mem := mem }
    if n < res then (eof, { s with errno := some .eio })
    else
      let s := { s with
        file := { s.file with wPos := s.file.wPos + res }
        accepted := s.accepted ++ formatChars text format args }
      if s.mem.bytes (s.file.wPos - 1) = 0x0a ∨ bufsiz / 2 < s.file.wPos - s.file.buf then
        (res, (fflush host s).2)
      else (res, s)

-- The loop of file_read, which takes at most `n` turns. `.error` is a return from within it.
def readLoop (host : Host) : Nat → Nat → Nat → Stdio → Except Stdio (Nat × Stdio)
  | 0, _, currentBufferSize, s => .ok (currentBufferSize, s)
  | fuel + 1, n, currentBufferSize, s =>
    if n ≤ currentBufferSize then .ok (currentBufferSize, s)
    else
      let count := min (n - currentBufferSize) vfsMaxIounit
      let t : Tread := ⟨s.tagCount, s.file.fid, s.file.offset + BitVec.ofNat 64 currentBufferSize, count⟩
      let s := { s with tagCount := s.tagCount + 1 }
      match host.read t with
      | none => .error { s with errno := some .eio }
      | some data =>
        let read := min data.length count
        let s := { s with mem := s.mem.memcpy (s.file.buf + currentBufferSize) (data.take read) }
        if data.length < count then .ok (currentBufferSize + read, s)
        else readLoop host fuel n (currentBufferSize + read) s

-- Two to the number of bits of a size_t.
def sizeModulus : Nat := 18446744073709551616

def fileRead (host : Host) (n : Nat) (s : Stdio) : Nat × Stdio :=
  match needBuf host s with
  | (false, s) => (0, s)
  | (true, s) =>
    let bufFill := ((s.file.rEnd : Int) - s.file.rPos) % sizeModulus
    if 0 < bufFill ∧ bufFill < n then (0, { s with file := { s.file with flags := s.file.flags ||| fEof } })
    else
      match readLoop host n n 0 s with
      | .error s => (0, s)
      | .ok (currentBufferSize, s) =>
        (currentBufferSize, { s with
          file := { s.file with rPos := s.file.buf, rEnd := s.file.buf + currentBufferSize } })

-- The end of fgetc, once there is a byte.
def nextByte (s : Stdio) : Int × Stdio :=
  let offset := if s.file.offset = -1 then s.file.offset else s.file.offset + 1
  ((s.mem.bytes s.file.rPos).toNat, { s with file := { s.file with offset := offset, rPos := s.file.rPos + 1 } })

-- if (file_read(stream, BUFSIZ) == 0) return EOF
def filledByte : Nat × Stdio → Int × Stdio
  | (0, s) => (eof, s)
  | (_ + 1, s) => nextByte s

def fgetc (host : Host) (s : Stdio) : Int × Stdio :=
  if s.file.has fEof then (eof, s)
  else if !s.file.has fRead then (eof, { s with errno := some .ebadf })
  else if s.file.rPos = s.file.rEnd then filledByte (fileRead host bufsiz s)
  else nextByte s

-- The bytes that are left in the buffer are copied first, however many were asked for.
def drain (ptr remainingSize : Nat) (s : Stdio) : Nat × Nat × Stdio :=
  if s.file.buf ≠ 0 ∧ s.file.rEnd ≠ s.file.rPos then
    let n := s.file.rEnd - s.file.rPos
    (n, ((remainingSize : Int) - n) % sizeModulus |>.toNat,
      { s with mem := s.mem.memcpy ptr (s.mem.bytes.bytes s.file.rPos n) })
  else (0, remainingSize, s)

def fread (host : Host) (ptr size nitems : Nat) (s : Stdio) : Nat × Stdio :=
  if size = 0 ∨ nitems = 0 then (0, s)
  else
    let total := size * nitems % sizeModulus
    let (read, remainingSize, s) := drain ptr total s
    let saved := s.file
    let s := { s with file := { s.file with buf := ptr, rPos := ptr + read, rEnd := ptr + remainingSize } }
    let (more, s) := fileRead host (total % intModulus) s
    let read := read + more
    let flags := if read < remainingSize then s.file.flags ||| fEof else s.file.flags
    (read / size, { s with
      file := { s.file with
        flags := flags
        buf := saved.buf
        rPos := saved.rPos
        rEnd := saved.rEnd
        offset := s.file.offset + BitVec.ofNat 64 read } })

end Anthill
