import Mathlib

/-! # Names of block devices

The device nodes that the scripts enumerate: disks with a letter, and NVMe and MMC
devices with numbers, each with or without a partition.
-/
namespace SecureWipeOut.DeviceNames

/-- The partition at the end of a name, for the disks whose own name ends in a digit. -/
def partitionSuffix : Option (List Char) → List Char
  | none => []
  | some p => 'p' :: p

/-- The names that the kernel gives to the block devices under `/dev/sd*`,
`/dev/nvme*n*` and `/dev/mmc*`. -/
inductive DeviceName
  | sd (letters digits : List Char) (hletters : ∀ c ∈ letters, c.isLower = true)
      (hdigits : ∀ c ∈ digits, c.isDigit = true)
  | nvme (controller space : List Char) (partition : Option (List Char))
      (hcontroller : ∀ c ∈ controller, c.isDigit = true) (hspace : ∀ c ∈ space, c.isDigit = true)
      (hpartition : ∀ p ∈ partition, ∀ c ∈ p, c.isDigit = true)
  | mmcblk (card : List Char) (partition : Option (List Char))
      (hcard : ∀ c ∈ card, c.isDigit = true) (hpartition : ∀ p ∈ partition, ∀ c ∈ p, c.isDigit = true)

namespace DeviceName

/-- What stands behind `/dev/`. -/
def base : DeviceName → List Char
  | sd letters digits _ _ => "sd".toList ++ (letters ++ digits)
  | nvme controller space partition _ _ _ =>
    "nvme".toList ++ (controller ++ 'n' :: (space ++ partitionSuffix partition))
  | mmcblk card partition _ _ => "mmcblk".toList ++ (card ++ partitionSuffix partition)

def path (d : DeviceName) : List Char := "/dev/".toList ++ d.base

@[simp] theorem base_sd {l ds : List Char} (hl hd) : (sd l ds hl hd).base = "sd".toList ++ (l ++ ds) := rfl
@[simp] theorem base_nvme {k n : List Char} {p : Option (List Char)} (hk hn hp) :
    (nvme k n p hk hn hp).base = "nvme".toList ++ (k ++ 'n' :: (n ++ partitionSuffix p)) := rfl
@[simp] theorem base_mmcblk {k : List Char} {p : Option (List Char)} (hk hp) :
    (mmcblk k p hk hp).base = "mmcblk".toList ++ (k ++ partitionSuffix p) := rfl

end DeviceName

theorem isAlphanum_of_isDigit {c : Char} (h : c.isDigit = true) : c.isAlphanum = true := by
  simp [Char.isAlphanum,h]

theorem isAlphanum_of_isLower {c : Char} (h : c.isLower = true) : c.isAlphanum = true := by
  simp [Char.isAlphanum,Char.isAlpha,h]

theorem partitionSuffix_alphanum {p : Option (List Char)} (h : ∀ t ∈ p, ∀ c ∈ t, c.isDigit = true) :
    ∀ c ∈ partitionSuffix p, c.isAlphanum = true := by
  cases p with
  | none => simp [partitionSuffix]
  | some t =>
    rw [partitionSuffix,List.forall_mem_cons]
    exact ⟨rfl,fun c hc => isAlphanum_of_isDigit (h t rfl c hc)⟩

theorem DeviceName.base_alphanum (d : DeviceName) : ∀ c ∈ d.base, c.isAlphanum = true := by
  cases d with
  | sd l ds hl hd =>
    rw [base_sd,List.forall_mem_append,List.forall_mem_append]
    exact ⟨List.all_eq_true.mp rfl,fun c hc => isAlphanum_of_isLower (hl c hc),fun c hc => isAlphanum_of_isDigit (hd c hc)⟩
  | nvme k n p hk hn hp =>
    rw [base_nvme,List.forall_mem_append,List.forall_mem_append,List.forall_mem_cons,
      List.forall_mem_append]
    exact ⟨List.all_eq_true.mp rfl,fun c hc => isAlphanum_of_isDigit (hk c hc),rfl,
      fun c hc => isAlphanum_of_isDigit (hn c hc),partitionSuffix_alphanum hp⟩
  | mmcblk k p hk hp =>
    rw [base_mmcblk,List.forall_mem_append,List.forall_mem_append]
    exact ⟨List.all_eq_true.mp rfl,fun c hc => isAlphanum_of_isDigit (hk c hc),partitionSuffix_alphanum hp⟩

/-- The disk that the kernel calls `sd` and a letter. -/
def DeviceName.disk (letter : Char) (h : letter.isLower = true) : DeviceName :=
  .sd [letter] [] (by simpa using h) (by simp)

end SecureWipeOut.DeviceNames
