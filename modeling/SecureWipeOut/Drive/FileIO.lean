import SecureWipeOut.Lib.ByteStore

/-! # Synchronous drive access through a file handle

The drive is a store with a file pointer. Every call to the system consumes one
answer of an arbitrary sequence: whether the call succeeded, how many bytes it
says it moved, what an incomplete write left in the requested range, and where
it left the file pointer. A transfer that reports success in full is truthful.
-/
namespace SecureWipeOut.FileIO
open ByteStore

structure Answer where
  ok : Bool
  count : ℕ
  junk : ℕ → UInt8
  pos : ℕ
  cancelled : Bool

/-- The writes field records every requested range, whatever came of it. -/
structure Drive where
  data : ℕ → UInt8
  pos : ℕ
  calls : ℕ
  writes : List (ℕ × ℕ)

variable (env : ℕ → Answer)

def setFilePointerEx (li : ℕ) (d : Drive) : Bool × Drive :=
  let a := env d.calls
  (a.ok, { d with pos := if a.ok then li else d.pos, calls := d.calls + 1 })

structure ReadResult where
  ok : Bool
  count : ℕ
  buf : ℕ → UInt8
  drive : Drive

def readFile (n : ℕ) (d : Drive) : ReadResult :=
  let a := env d.calls
  let count := min a.count n
  { ok := a.ok
    count := count
    buf := fun i => if a.ok && decide (i < count) then d.data (d.pos + i) else a.junk i
    drive := { d with pos := if a.ok then d.pos + count else a.pos, calls := d.calls + 1 } }

structure WriteResult where
  ok : Bool
  count : ℕ
  drive : Drive

def writeFile (buf : ℕ → UInt8) (n : ℕ) (d : Drive) : WriteResult :=
  let a := env d.calls
  let count := min a.count n
  let complete := a.ok && count == n
  { ok := a.ok
    count := count
    drive :=
      { data := overwrite d.data d.pos n (if complete then buf else a.junk)
        pos := if complete then d.pos + n else a.pos
        calls := d.calls + 1
        writes := d.writes ++ [(d.pos,n)] } }

/-- CHECK_FOR_USER_CANCEL reads the status word as it stands before the next call. -/
def userCancel (d : Drive) : Bool := (env d.calls).cancelled

theorem setFilePointerEx_data (li : ℕ) (d : Drive) :
    (setFilePointerEx env li d).2.data = d.data := rfl
theorem setFilePointerEx_writes (li : ℕ) (d : Drive) :
    (setFilePointerEx env li d).2.writes = d.writes := rfl

theorem setFilePointerEx_pos {li : ℕ} {d : Drive} (h : (setFilePointerEx env li d).1 = true) :
    (setFilePointerEx env li d).2.pos = li := by
  simp only [setFilePointerEx] at h ⊢
  exact if_pos h

/-- A read that succeeds in full delivers the stored bytes and moves past them. -/
theorem readFile_complete {n : ℕ} {d : Drive} (hok : (readFile env n d).ok = true)
    (hc : (readFile env n d).count = n) :
    (∀ i < n, (readFile env n d).buf i = d.data (d.pos + i)) ∧
      (readFile env n d).drive.pos = d.pos + n := by
  simp only [readFile] at hok hc ⊢
  refine ⟨?_,by simp [hok,hc]⟩
  intro i hi
  simp [hok,hc,hi]

theorem writeFile_sameOutside (buf : ℕ → UInt8) (n : ℕ) (d : Drive) :
    SameOutside d.data (writeFile env buf n d).drive.data d.pos n :=
  sameOutside_overwrite d.data d.pos n _

theorem writeFile_writes (buf : ℕ → UInt8) (n : ℕ) (d : Drive) :
    (writeFile env buf n d).drive.writes = d.writes ++ [(d.pos,n)] := rfl

theorem writeFile_complete {buf : ℕ → UInt8} {n : ℕ} {d : Drive}
    (hok : (writeFile env buf n d).ok = true) (hc : (writeFile env buf n d).count = n) :
    (∀ i, d.pos ≤ i → i < d.pos + n → (writeFile env buf n d).drive.data i = buf (i - d.pos)) ∧
      (writeFile env buf n d).drive.pos = d.pos + n := by
  simp only [writeFile] at hok hc ⊢
  refine ⟨?_,by simp [hok,hc]⟩
  intro i hi hi'
  rw [overwrite_inside _ _ hi hi']
  simp [hok,hc]

end SecureWipeOut.FileIO
