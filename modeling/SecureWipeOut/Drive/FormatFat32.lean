import SecureWipeOut.Lib.CInt

/-! # Layout computed by FormatLargeFAT32

From the partition length, the sector size and the requested cluster size the
function derives the FAT size, pads the reserved region so that the data area
starts on a megabyte, counts the clusters again and rejects what FAT32 cannot
hold. Accepted layouts are then zeroed, burst by burst, up to the root cluster.
-/
namespace SecureWipeOut.FormatFat32
open CInt

def KB : ℕ := 1024
def MB : ℕ := 1048576
def GB : ℕ := 1073741824
def TB : ℕ := 1099511627776

def numFATs : ℕ := 2
def burstSize : ℕ := 128

def getFATSizeSectors (dskSize reservedSecCnt secPerClus nFATs bytesPerSect : ℕ) : ℕ :=
  let fatElementSize := 4
  let reservedClusCnt := 2
  let numerator := dsub dskSize reservedSecCnt + reservedClusCnt * secPerClus
  let denominator := secPerClus * bytesPerSect / fatElementSize + nFATs
  dword (numerator / denominator + 1)

def defaultClusterSize (partitionLength : ℕ) : ℕ :=
  if partitionLength < 64 * MB then 512
  else if partitionLength < 128 * MB then 1 * KB
  else if partitionLength < 256 * MB then 2 * KB
  else if partitionLength < 8 * GB then 4 * KB
  else if partitionLength < 16 * GB then 8 * KB
  else if partitionLength < 32 * GB then 16 * KB
  else if partitionLength < 2 * TB then 32 * KB
  else 64 * KB

/-- The cluster size in effect: the requested one, or the default for zero. -/
def effectiveClusterSize (partitionLength clusterSize : ℕ) : ℕ :=
  if clusterSize = 0 then defaultClusterSize partitionLength else clusterSize

/-- The starting sectors of the zeroing bursts from i on. -/
def zeroingBursts (systemAreaSize i : ℕ) : List ℕ :=
  if i < dword (systemAreaSize + burstSize - 1) then
    i :: zeroingBursts systemAreaSize (i + burstSize)
  else []
termination_by dword (systemAreaSize + burstSize - 1) - i
decreasing_by
  unfold burstSize at *
  omega

/-- The values behind the boot sector and FSInfo fields, with the fields as stored. -/
structure Layout where
  bytesPerSect : ℕ
  totalSectors : ℕ
  sectorsPerCluster : ℕ
  bSecPerClus : ℕ
  fatSize : ℕ
  alignSectors : ℕ
  reservedSectCount : ℕ
  wRsvdSecCnt : ℕ
  userAreaSize : ℕ
  clusterCount : ℕ
  dFreeCount : ℕ
  systemAreaSize : ℕ
  bursts : List ℕ

def layout (partitionLength bytesPerSect clusterSize : ℕ) : Layout :=
  let sectorsPerCluster := clusterSize / bytesPerSect
  let bSecPerClus := sectorsPerCluster % 2 ^ 8
  let totalSectors := dword (partitionLength / bytesPerSect)
  let fatSize := getFATSizeSectors totalSectors 0 bSecPerClus numFATs bytesPerSect
  let unaligned := dword (32 + dword (numFATs * fatSize))
  let alignSectors := dword (1 * MB / bytesPerSect)
  let aligned := dword (dword (unaligned + alignSectors - 1) / alignSectors * alignSectors)
  let reservedSectCount := dsub aligned (dword (numFATs * fatSize))
  let userAreaSize := dsub (dsub totalSectors reservedSectCount) (dword (numFATs * fatSize))
  let systemAreaSize :=
    dword (dword (reservedSectCount + dword (numFATs * fatSize)) + sectorsPerCluster)
  { bytesPerSect := bytesPerSect
    totalSectors := totalSectors
    sectorsPerCluster := sectorsPerCluster
    bSecPerClus := bSecPerClus
    fatSize := fatSize
    alignSectors := alignSectors
    reservedSectCount := reservedSectCount
    wRsvdSecCnt := reservedSectCount % 2 ^ 16
    userAreaSize := userAreaSize
    clusterCount := userAreaSize / sectorsPerCluster
    dFreeCount := dsub (userAreaSize / sectorsPerCluster) 1
    systemAreaSize := systemAreaSize
    bursts := zeroingBursts systemAreaSize 0 }

def fatNeeded (l : Layout) : ℕ := (l.clusterCount * 4 + (l.bytesPerSect - 1)) / l.bytesPerSect

def formatLargeFAT32 (partitionLength bytesPerSector clusterSize : ℕ) : Except String Layout :=
  let bytesPerSect := if bytesPerSector < 512 then 512 else bytesPerSector
  let qTotalSectors := partitionLength / bytesPerSect
  if qTotalSectors < 65536 then
    .error "This drive is too small for FAT32 - there must be at least 64K clusters"
  else if qTotalSectors ≥ 0xffffffff then
    .error "This drive is too big for FAT32 - max 2TB supported"
  else
    let l := layout partitionLength bytesPerSect
      (effectiveClusterSize partitionLength clusterSize)
    if l.clusterCount > 0x0FFFFFFF then
      .error "This drive has more than 2^28 clusters, try to specify a larger cluster size or use the default"
    else if l.clusterCount < 65536 then
      .error "FAT32 must have at least 65536 clusters, try to specify a smaller cluster size or use the default"
    else if fatNeeded l > l.fatSize then
      .error "This drive is too big for large FAT32 format"
    else .ok l

end SecureWipeOut.FormatFat32
