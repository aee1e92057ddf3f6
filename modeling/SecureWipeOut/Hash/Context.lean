import SecureWipeOut.Lib.ByteStore
import SecureWipeOut.Lib.CInt
import SecureWipeOut.Lib.Loop
import SecureWipeOut.Hash.Transform

/-! # Digest contexts

Initialisation, buffered writing and finalisation of the four digests. A chunk is
the memory behind the caller's pointer together with a length; nothing keeps a
writer from reading past the length.
-/
namespace SecureWipeOut.Hash
open ByteStore CInt

structure HashContext where
  buf : ℕ → UInt8
  state : Words
  bytecount : ℕ

structure Chunk where
  data : ℕ → UInt8
  len : ℕ

def shift (p : ℕ → UInt8) (n : ℕ) : ℕ → UInt8 := fun i => p (i + n)

def initContext (state : Words) : HashContext := ⟨fun _ => 0,state,0⟩

def md5Init : HashContext :=
  initContext #v[0x67452301,0xefcdab89,0x98badcfe,0x10325476,0,0,0,0]
def sha1Init : HashContext :=
  initContext #v[0x67452301,0xefcdab89,0x98badcfe,0x10325476,0xc3d2e1f0,0,0,0]
def sha256Init : HashContext :=
  initContext #v[0x6a09e667,0xbb67ae85,0x3c6ef372,0xa54ff53a,0x510e527f,0x9b05688c,0x1f83d9ab,
    0x5be0cd19]
def sha512Init : HashContext :=
  initContext #v[0x6a09e667f3bcc908,0xbb67ae8584caa73b,0x3c6ef372fe94f82b,0xa54ff53a5f1d36f1,
    0x510e527fade682d1,0x9b05688c2b3e6c1f,0x1f83d9abfb41bd6b,0x5be0cd19137e2179]

section Write

/-- The loop over whole blocks: the chaining words, the position and the length it
leaves. -/
def wholeBlocks {B : ℕ} (transform : Words → Vector UInt8 B → Words) (s : Words)
    (p : ℕ → UInt8) (len : ℕ) : Words × (ℕ → UInt8) × ℕ :=
  if 0 < B ∧ B ≤ len then wholeBlocks transform (transform s (block B p)) (shift p B) (len - B)
  else (s,p,len)
  termination_by len

/-- All whole blocks handed to an accelerated transform in one call. -/
def acceleratedBlocks {n : ℕ} (body : X86Block n) (s : Words) (p : ℕ → UInt8) (len : ℕ) :
    Words × (ℕ → UInt8) × ℕ :=
  if 64 ≤ len then
    let num := len / 64 * 64
    (transformX86 body s p num,shift p num,len - num)
  else (s,p,len)

/-- The part of a write behind the leading odd-sized chunk. -/
def writeRest (bulk : Words → (ℕ → UInt8) → ℕ → Words × (ℕ → UInt8) × ℕ) (ctx : HashContext)
    (p : ℕ → UInt8) (len : ℕ) : HashContext :=
  let r := bulk ctx.state p len
  { ctx with state := r.1, buf := overwrite ctx.buf 0 r.2.2 r.2.1 }

/-- A write: copied is how many bytes are copied when the chunk does not fill the
buffer, given its length and the room left. -/
def hashWrite {B : ℕ} (transform : Words → Vector UInt8 B → Words)
    (bulk : Words → (ℕ → UInt8) → ℕ → Words × (ℕ → UInt8) × ℕ) (copied : ℕ → ℕ → ℕ)
    (ctx : HashContext) (c : Chunk) : HashContext :=
  let num := ctx.bytecount &&& (B - 1)
  let ctx := { ctx with bytecount := qword (ctx.bytecount + c.len) }
  if num ≠ 0 then
    let room := B - num
    if c.len < room then
      { ctx with buf := overwrite ctx.buf num (copied c.len room) c.data }
    else
      let buf := overwrite ctx.buf num room c.data
      writeRest bulk { ctx with buf := buf, state := transform ctx.state (block B buf) }
        (shift c.data room) (c.len - room)
  else writeRest bulk ctx c.data c.len

variable (cpu : Cpu)

def sha1Write : HashContext → Chunk → HashContext :=
  hashWrite (sha1Transform cpu)
    (match cpu.sha1 with
      | some body => acceleratedBlocks body
      | none => wholeBlocks (sha1Transform cpu)) (fun len _ => len)

def sha256Write : HashContext → Chunk → HashContext :=
  hashWrite (sha256Transform cpu)
    (match cpu.sha256 with
      | some body => acceleratedBlocks body
      | none => wholeBlocks (sha256Transform cpu)) (fun len _ => len)

def sha512Write : HashContext → Chunk → HashContext :=
  hashWrite sha512Transform (wholeBlocks sha512Transform) (fun len _ => len)

/-- The only writer that copies as much as the buffer has room for, whatever the
length of the chunk. -/
def md5Write : HashContext → Chunk → HashContext :=
  hashWrite md5Transform (wholeBlocks md5Transform) (fun _ room => room)

end Write

section Final

structure PadState where
  pos : ℕ
  buf : ℕ → UInt8
  state : Words

/-- One turn of the padding loop, which ends where the length field begins. -/
def padStep {B : ℕ} (transform : Words → Vector UInt8 B → Words) (field : ℕ) (s : PadState) :
    PadState ⊕ PadState :=
  if s.pos ≠ B - field then
    let pos := s.pos &&& (B - 1)
    let state := if pos = 0 then transform s.state (block B s.buf) else s.state
    .inl ⟨pos + 1,overwrite s.buf pos 1 (fun _ => 0),state⟩
  else .inr s

/-- Byte i of a value, the least significant one first. -/
def byteOf (v i : ℕ) : UInt8 := UInt8.ofNat (v / 256 ^ i)

/-- Big-endian chaining words of the given width, as the digest is stored. -/
def storeWords (width : ℕ) (s : Words) : ℕ → UInt8 := fun i =>
  byteOf (s[i / width]?.getD 0).toNat (width - 1 - i % width)

def shaFinal {B : ℕ} (transform : Words → Vector UInt8 B → Words) (field : ℕ)
    (lengthField : ℕ → ℕ → UInt8) (width count : ℕ) (ctx : HashContext) : Option HashContext :=
  let pos := ctx.bytecount &&& (B - 1)
  let start : PadState := ⟨pos + 1,overwrite ctx.buf pos 1 (fun _ => 0x80),ctx.state⟩
  match Loop.run (padStep transform field) (2 * B) start with
  | none => none
  | some s =>
    let buf := overwrite s.buf (B - field) field (lengthField ctx.bytecount)
    let state := transform s.state (block B buf)
    some ⟨overwrite buf 0 (width * count) (storeWords width state),state,ctx.bytecount⟩

/-- The 64-bit count of bits, most significant byte first. -/
def bitcount64 (bytecount : ℕ) : ℕ → UInt8 := fun i => byteOf (qword (bytecount * 8)) (7 - i)

/-- The count of bits as two 64-bit words, the high one in front. -/
def bitcount128 (bytecount : ℕ) : ℕ → UInt8 := fun i =>
  if i < 8 then byteOf (bytecount / 2 ^ (64 - 3)) (7 - i)
  else byteOf (qword (bytecount * 8)) (15 - i)

variable (cpu : Cpu)

def sha1Final : HashContext → Option HashContext :=
  shaFinal (sha1Transform cpu) 8 bitcount64 4 5
def sha256Final : HashContext → Option HashContext :=
  shaFinal (sha256Transform cpu) 8 bitcount64 4 8
def sha512Final : HashContext → Option HashContext :=
  shaFinal sha512Transform 16 bitcount128 8 8

def md5Final (ctx : HashContext) : HashContext :=
  let count := ctx.bytecount &&& (64 - 1)
  let bitcount := qword (ctx.bytecount * 8)
  let marked := overwrite ctx.buf count 1 (fun _ => 0x80)
  let left := 64 - 1 - count
  let padded : (ℕ → UInt8) × Words :=
    if left < 8 then
      let full := overwrite marked (count + 1) left (fun _ => 0)
      (overwrite full 0 (64 - 8) (fun _ => 0),md5Transform ctx.state (block 64 full))
    else (overwrite marked (count + 1) (left - 8) (fun _ => 0),ctx.state)
  let buf := overwrite padded.1 (64 - 8) 8 (fun i => byteOf bitcount i)
  let state := md5Transform padded.2 (block 64 buf)
  ⟨overwrite buf 0 16 (fun i => byteOf (state[i / 4]?.getD 0).toNat (i % 4)),state,ctx.bytecount⟩

end Final

/-- A digest as its callers use it. -/
structure Algorithm where
  init : HashContext
  write : HashContext → Chunk → HashContext
  final : HashContext → Option HashContext
  hashSize : ℕ

def md5 : Algorithm := ⟨md5Init,md5Write,fun ctx => some (md5Final ctx),16⟩
def sha1 (cpu : Cpu) : Algorithm := ⟨sha1Init,sha1Write cpu,sha1Final cpu,20⟩
def sha256 (cpu : Cpu) : Algorithm := ⟨sha256Init,sha256Write cpu,sha256Final cpu,32⟩
def sha512 : Algorithm := ⟨sha512Init,sha512Write,sha512Final,64⟩

/-- The bytes of a range of memory. -/
def bytes (p : ℕ → UInt8) (n : ℕ) : List UInt8 := (List.range n).map p

/-- Initialise, write every chunk, finalise, and take the digest off the buffer. -/
def Algorithm.hash (a : Algorithm) (chunks : List Chunk) : Option (List UInt8) :=
  (a.final (chunks.foldl a.write a.init)).map fun ctx => bytes ctx.buf a.hashSize

end SecureWipeOut.Hash
