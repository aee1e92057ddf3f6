import SecureWipeOut.Drive.BadBlocksCoverage

/-! # Devices that store blocks elsewhere

A device keeps every block in some cell. A genuine one has a cell for every block; one
that claims more than it has uses a cell for several blocks, and what is written last to
any of them is what all of them return. All transfers of such a device succeed.
-/
namespace SecureWipeOut.BadBlocks
open Sectors
universe u
variable {σ : Type u} {h : Handle σ}

/-- The cells behind the blocks of a device, and that its operations act on these alone. -/
structure StoresThrough (h : Handle σ) (blockSize : ℕ) (cell : ℕ → ℕ) where
  pos : σ → ℕ
  stored : σ → ℕ → ℕ → UInt8
  cancelled : ∀ s, (h.cancelled s).1 = false ∧ stored (h.cancelled s).2 = stored s
  getFilePointer : ∀ s, pos (h.getFilePointer s).2 = pos s ∧
    stored (h.getFilePointer s).2 = stored s
  seek : ∀ a s, (h.setFilePointerEx a s).1 = true ∧ pos (h.setFilePointerEx a s).2 = a ∧
    stored (h.setFilePointerEx a s).2 = stored s
  write : ∀ buf n s, (h.writeFile buf n s).1 = ⟨true,n⟩
  write_last : ∀ buf b n s i, pos s = b * blockSize → i < n →
    (∀ i', i < i' → i' < n → cell (b + i') ≠ cell (b + i)) → ∀ j < blockSize,
    stored (h.writeFile buf (n * blockSize) s).2 (cell (b + i)) j = buf (i * blockSize + j)
  write_other : ∀ buf b n s x, pos s = b * blockSize → (∀ i < n, cell (b + i) ≠ x) →
    stored (h.writeFile buf (n * blockSize) s).2 x = stored s x
  read : ∀ n s, (h.readFile n s).1.count = n ∧ stored (h.readFile n s).2 = stored s
  read_data : ∀ b n s i j, pos s = b * blockSize → i < n → j < blockSize →
    (h.readFile (n * blockSize) s).1.data (i * blockSize + j) = stored s (cell (b + i)) j

theorem blocksOf_mul (p : Params) (n : ℕ) : blocksOf p ((n : ℤ) * (p.blockSize : ℤ)) = n := by
  rw [blocksOf,← Nat.cast_mul,Int.toNat_natCast,Nat.mul_div_cancel n p.blockSize_pos]

section transfers
variable {p : Params} {cell : ℕ → ℕ} (d : StoresThrough h p.blockSize cell)
include d

/-- A write moves all its blocks; of several that go to one cell the last one stays. -/
theorem doWrite_stores (buffer : ℕ → UInt8) {n : ℕ} (b : ℕ) (s : σ)
    (hn : n * p.blockSize ≤ 0xFFFFFFFF) :
    (doWrite h p buffer n b s).1 = n ∧
      (∀ i < n, (∀ i', i < i' → i' < n → cell (b + i') ≠ cell (b + i)) → ∀ j < p.blockSize,
        d.stored (doWrite h p buffer n b s).2 (cell (b + i)) j = buffer (i * p.blockSize + j)) ∧
      ∀ x, (∀ i < n, cell (b + i) ≠ x) →
        d.stored (doWrite h p buffer n b s).2 x = d.stored s x := by
  obtain ⟨hseek,hpos,hstored⟩ := d.seek (b * p.blockSize) s
  obtain ⟨hpos',hstored'⟩ := d.getFilePointer (h.setFilePointerEx (b * p.blockSize) s).2
  set s' := (h.getFilePointer (h.setFilePointerEx (b * p.blockSize) s).2).2
  have hwrite := d.write buffer (n * p.blockSize) s'
  have hresult : doWrite h p buffer n b s = (n,(h.writeFile buffer (n * p.blockSize) s').2) := by
    have htries : writeFileWithRetry h p.largeDrive buffer (n * p.blockSize) writeRetries
        (h.setFilePointerEx (b * p.blockSize) s).2 = h.writeFile buffer (n * p.blockSize) s' := by
      simp [writeFileWithRetry,writeRetries,writeTries,s',hwrite]
    simp only [doWrite,writeSectors,hseek,htries,hwrite,Nat.not_lt.mpr hn]
    simp [blocksOf_mul]
  rw [hresult]
  refine ⟨rfl,fun i hi hlast j hj => ?_,fun x hx => ?_⟩
  · exact d.write_last buffer b n s' i (hpos'.trans hpos) hi hlast j hj
  · rw [d.write_other buffer b n s' x (hpos'.trans hpos) hx,hstored',hstored]

theorem doRead_stored {n : ℕ} (b : ℕ) (s : σ) (hn : n * p.blockSize ≤ 0xFFFFFFFF) :
    (doRead h p n b s).1.1 = n ∧ d.stored (doRead h p n b s).2 = d.stored s ∧
      ∀ i < n, ∀ j < p.blockSize,
        (doRead h p n b s).1.2 (i * p.blockSize + j) = d.stored s (cell (b + i)) j := by
  obtain ⟨hseek,hpos,hstored⟩ := d.seek (b * p.blockSize) s
  have hread := d.read (n * p.blockSize) (h.setFilePointerEx (b * p.blockSize) s).2
  set r := h.readFile (n * p.blockSize) (h.setFilePointerEx (b * p.blockSize) s).2 with hr
  have hresult : doRead h p n b s = ((n,r.1.data),r.2) := by
    simp only [doRead,readSectors,hseek,← hr,hread.1,Nat.not_lt.mpr hn]
    simp [blocksOf_mul]
  rw [hresult]
  refine ⟨rfl,hread.2.trans hstored,fun i hi j hj => ?_⟩
  rw [← hstored]
  exact d.read_data b n _ i j hpos hi hj

end transfers

section drive
variable (blockSize : ℕ) (cell : ℕ → ℕ)

structure Cells where
  pos : ℕ
  stored : ℕ → ℕ → UInt8

/-- The cells after n blocks of the buffer have been written from block b on. -/
def writeCells (buf : ℕ → UInt8) (b : ℕ) : ℕ → (ℕ → ℕ → UInt8) → ℕ → ℕ → UInt8
  | 0,stored => stored
  | n + 1,stored => Function.update (writeCells buf b n stored) (cell (b + n))
      fun j => buf (n * blockSize + j)

/-- A drive with the given cells. -/
def cellDrive : Handle Cells where
  getFilePointer s := (some s.pos,s)
  setFilePointerEx a s := (true,{ s with pos := a })
  readFile n s := (⟨true,n,fun i => s.stored (cell (s.pos / blockSize + i / blockSize)) (i % blockSize)⟩,s)
  writeFile buf n s := (⟨true,n⟩,{ s with
    stored := writeCells blockSize cell buf (s.pos / blockSize) (n / blockSize) s.stored })
  cancelled s := (false,s)
  read_le _ _ := le_refl _
  write_le _ _ _ := le_refl _

variable {blockSize cell}

theorem writeCells_other (buf : ℕ → UInt8) (b : ℕ) {n x : ℕ} (stored : ℕ → ℕ → UInt8)
    (hx : ∀ i < n, cell (b + i) ≠ x) : writeCells blockSize cell buf b n stored x = stored x := by
  induction n with
  | zero => rfl
  | succ n ih =>
    rw [writeCells,Function.update_of_ne (hx n (by omega)).symm]
    exact ih fun i hi => hx i (by omega)

theorem writeCells_last (buf : ℕ → UInt8) (b : ℕ) {n i : ℕ} (stored : ℕ → ℕ → UInt8) (hi : i < n)
    (hlast : ∀ i', i < i' → i' < n → cell (b + i') ≠ cell (b + i)) (j : ℕ) :
    writeCells blockSize cell buf b n stored (cell (b + i)) j = buf (i * blockSize + j) := by
  induction n with
  | zero => omega
  | succ n ih =>
    rw [writeCells]
    rcases (Nat.le_of_lt_succ hi).eq_or_lt with rfl | hlt
    · rw [Function.update_self]
    · rw [Function.update_of_ne (hlast n hlt (by omega)).symm]
      exact ih hlt fun i' hi' hn => hlast i' hi' (by omega)

def cellDrive_storesThrough (hb : 0 < blockSize) :
    StoresThrough (cellDrive blockSize cell) blockSize cell where
  pos s := s.pos
  stored s := s.stored
  cancelled _ := ⟨rfl,rfl⟩
  getFilePointer _ := ⟨rfl,rfl⟩
  seek _ _ := ⟨rfl,rfl,rfl⟩
  write _ _ _ := rfl
  write_last := by
    intro buf b n s i hpos hi hlast j _
    simp only [cellDrive,hpos,Nat.mul_div_cancel _ hb]
    exact writeCells_last buf b s.stored hi hlast j
  write_other := by
    intro buf b n s x hpos hx
    simp only [cellDrive,hpos,Nat.mul_div_cancel _ hb]
    exact writeCells_other buf b s.stored hx
  read _ _ := ⟨rfl,rfl⟩
  read_data := by
    intro b n s i j hpos _ hj
    have hdiv : (i * blockSize + j) / blockSize = i := by
      rw [Nat.add_comm,Nat.add_mul_div_right _ _ hb,Nat.div_eq_of_lt hj,Nat.zero_add]
    have hmod : (i * blockSize + j) % blockSize = j := by
      rw [Nat.add_comm,Nat.add_mul_mod_self_right,Nat.mod_eq_of_lt hj]
    simp only [cellDrive,hpos,Nat.mul_div_cancel _ hb,hdiv,hmod]

end drive

end SecureWipeOut.BadBlocks
