import SecureWipeOut.Boot.Certificate
import SecureWipeOut.Boot.CertificateDocument
import SecureWipeOut.Boot.CertificateIds
import SecureWipeOut.Boot.CertificateRoundTrip
import SecureWipeOut.Boot.CertificateSignature
import SecureWipeOut.Boot.DeviceNames
import SecureWipeOut.Boot.FullScan
import SecureWipeOut.Boot.FullScanExact
import SecureWipeOut.Boot.Hexdump
import SecureWipeOut.Boot.HpaReport
import SecureWipeOut.Boot.HpaSession
import SecureWipeOut.Boot.HpaSessionSoundness
import SecureWipeOut.Boot.Launcher
import SecureWipeOut.Boot.SampleVerdict
import SecureWipeOut.Boot.Sampling
import SecureWipeOut.Boot.SectorTests
import SecureWipeOut.Boot.SyslinuxAdv
import SecureWipeOut.Boot.SyslinuxExtra
import SecureWipeOut.Boot.SyslinuxPatch
import SecureWipeOut.Boot.SyslinuxScan
import SecureWipeOut.Boot.SyslinuxVersion
import SecureWipeOut.Boot.SyslinuxVersionExact
import SecureWipeOut.Boot.Wipes
import SecureWipeOut.Drive.BadBlockList
import SecureWipeOut.Drive.BadBlockListExact
import SecureWipeOut.Drive.BadBlocks
import SecureWipeOut.Drive.BadBlocksAccounting
import SecureWipeOut.Drive.BadBlocksCoverage
import SecureWipeOut.Drive.BadBlocksSteps
import SecureWipeOut.Drive.BootRecord
import SecureWipeOut.Drive.ClearMbrGpt
import SecureWipeOut.Drive.ClearMbrGptExact
import SecureWipeOut.Drive.CreatePartition
import SecureWipeOut.Drive.FakeDetection
import SecureWipeOut.Drive.FakeDetectionVerify
import SecureWipeOut.Drive.FakeDevice
import SecureWipeOut.Drive.Fat32Layout
import SecureWipeOut.Drive.FileData
import SecureWipeOut.Drive.FileDataFaults
import SecureWipeOut.Drive.FileIO
import SecureWipeOut.Drive.FormatFat32
import SecureWipeOut.Drive.GuidText
import SecureWipeOut.Drive.HumanReadable
import SecureWipeOut.Drive.MasterBootRecord
import SecureWipeOut.Drive.PartitionBootRecord
import SecureWipeOut.Drive.PartitionPlacement
import SecureWipeOut.Drive.PartitionSoundness
import SecureWipeOut.Drive.SectorWrite
import SecureWipeOut.Drive.Sectors
import SecureWipeOut.Drive.ToggleEsp
import SecureWipeOut.Drive.ToggleEspFaults
import SecureWipeOut.Drive.ToggleEspRoundTrip
import SecureWipeOut.Drive.ValidLabel
import SecureWipeOut.Drive.ValidLabelExact
import SecureWipeOut.Drive.WriteFileWithRetry
import SecureWipeOut.Drive.WriteImage
import SecureWipeOut.Drive.WriteImageExact
import SecureWipeOut.Drive.WriteImageSteps
import SecureWipeOut.Drive.ZeroDrive
import SecureWipeOut.Drive.ZeroDriveBlocks
import SecureWipeOut.Drive.ZeroDriveLoop
import SecureWipeOut.Hash.AcceleratedSha1
import SecureWipeOut.Hash.AcceleratedSha256
import SecureWipeOut.Hash.Context
import SecureWipeOut.Hash.Digest
import SecureWipeOut.Hash.HashThread
import SecureWipeOut.Hash.HashThreadDigest
import SecureWipeOut.Hash.HashThreadInvariant
import SecureWipeOut.Hash.HashThreadSafety
import SecureWipeOut.Hash.HashThreadSteps
import SecureWipeOut.Hash.StandardDigests
import SecureWipeOut.Hash.StepLines
import SecureWipeOut.Hash.StepLinesShift
import SecureWipeOut.Hash.Streaming
import SecureWipeOut.Hash.ThreadAffinity
import SecureWipeOut.Hash.Transform
import SecureWipeOut.Hash.TransformStandards
import SecureWipeOut.Hash.TransformWords
import SecureWipeOut.Hash.WriterBounds
import SecureWipeOut.Image.Authenticode
import SecureWipeOut.Image.Dbx
import SecureWipeOut.Image.DbxExact
import SecureWipeOut.Image.PeImage
import SecureWipeOut.Image.PeRange
import SecureWipeOut.Image.PeRegions
import SecureWipeOut.Image.PeRegionsExact
import SecureWipeOut.Image.PeSection
import SecureWipeOut.Image.ResourceSearch
import SecureWipeOut.Image.ResourceTree
import SecureWipeOut.Lib.Base128
import SecureWipeOut.Lib.BitLanes
import SecureWipeOut.Lib.BitMask
import SecureWipeOut.Lib.ByteStore
import SecureWipeOut.Lib.Bytes
import SecureWipeOut.Lib.CInt
import SecureWipeOut.Lib.CText
import SecureWipeOut.Lib.Calendar
import SecureWipeOut.Lib.CodeBlock
import SecureWipeOut.Lib.DecimalFormat
import SecureWipeOut.Lib.DigestConstants
import SecureWipeOut.Lib.DigestStandards
import SecureWipeOut.Lib.Encodings
import SecureWipeOut.Lib.HexFormat
import SecureWipeOut.Lib.Jq
import SecureWipeOut.Lib.JqLayout
import SecureWipeOut.Lib.Json
import SecureWipeOut.Lib.JsonStrings
import SecureWipeOut.Lib.JsonValues
import SecureWipeOut.Lib.Loop
import SecureWipeOut.Lib.MarkedWalk
import SecureWipeOut.Lib.MerkleDamgard
import SecureWipeOut.Lib.Nearest
import SecureWipeOut.Lib.OpenAddressing
import SecureWipeOut.Lib.Ranges
import SecureWipeOut.Lib.ScanFormat
import SecureWipeOut.Lib.Search
import SecureWipeOut.Lib.ShaInstructions
import SecureWipeOut.Lib.Shell
import SecureWipeOut.Lib.Text
import SecureWipeOut.Lib.TextFile
import SecureWipeOut.Lib.WordRotation
import SecureWipeOut.Loc.DialogRuns
import SecureWipeOut.Loc.DialogSoundness
import SecureWipeOut.Loc.DialogStore
import SecureWipeOut.Loc.DialogStoreInvariant
import SecureWipeOut.Loc.LocBroken
import SecureWipeOut.Loc.LocCmd
import SecureWipeOut.Loc.LocFile
import SecureWipeOut.Loc.LocReader
import SecureWipeOut.Loc.LocRoundTrip
import SecureWipeOut.Loc.LocString
import SecureWipeOut.Loc.LocTermination
import SecureWipeOut.Media.Md5sumQuery
import SecureWipeOut.Media.Md5sumQueryRuns
import SecureWipeOut.Media.Md5sumRename
import SecureWipeOut.Media.Md5sumRenameExact
import SecureWipeOut.Media.Md5sumRenameLines
import SecureWipeOut.Media.Md5sumRenameLoop
import SecureWipeOut.Media.Md5sumUpdate
import SecureWipeOut.Media.Md5sumUpdateExact
import SecureWipeOut.Media.Md5sumUpdateLines
import SecureWipeOut.Media.OpticalDiscSave
import SecureWipeOut.Media.OpticalDiscSaveExact
import SecureWipeOut.Media.ReadFat
import SecureWipeOut.Media.ReadFatExact
import SecureWipeOut.Media.UdfCopy
import SecureWipeOut.Media.UdfCopyExact
import SecureWipeOut.Parser.Asn1
import SecureWipeOut.Parser.Asn1Bounds
import SecureWipeOut.Parser.Asn1Elements
import SecureWipeOut.Parser.FileEditors
import SecureWipeOut.Parser.Oid
import SecureWipeOut.Parser.OidEncoding
import SecureWipeOut.Parser.OidExact
import SecureWipeOut.Parser.SanitizeLabel
import SecureWipeOut.Parser.SanitizeLabelExact
import SecureWipeOut.Parser.Sbat
import SecureWipeOut.Parser.SbatExact
import SecureWipeOut.Parser.SbatLevelLines
import SecureWipeOut.Parser.SbatLevels
import SecureWipeOut.Parser.SbatLines
import SecureWipeOut.Parser.Thumbprints
import SecureWipeOut.Parser.ThumbprintsExact
import SecureWipeOut.Parser.TokenBuffer
import SecureWipeOut.Parser.TokenFile
import SecureWipeOut.Parser.TokenFileRoundTrip
import SecureWipeOut.Parser.TokenLine
import SecureWipeOut.Parser.TokenMerge
import SecureWipeOut.Parser.TokenPatch
import SecureWipeOut.Parser.TokenPatchExact
import SecureWipeOut.Parser.TokenPatchLine
import SecureWipeOut.Parser.TokenWritten
import SecureWipeOut.Pki.SkuPolicy
import SecureWipeOut.Pki.SkuPolicyExact
import SecureWipeOut.Pki.TimeStamp
import SecureWipeOut.Regex.Classes
import SecureWipeOut.Regex.Compile
import SecureWipeOut.Regex.CompileExact
import SecureWipeOut.Regex.Derivatives
import SecureWipeOut.Regex.Leftmost
import SecureWipeOut.Regex.Parse
import SecureWipeOut.Regex.ParseExact
import SecureWipeOut.Regex.ParseSafe
import SecureWipeOut.Regex.Search
import SecureWipeOut.Regex.Spans
import SecureWipeOut.Regex.Vm
import SecureWipeOut.Regex.VmExact
import SecureWipeOut.Settings.Agreement
import SecureWipeOut.Settings.Backends
import SecureWipeOut.Settings.IniLines
import SecureWipeOut.Settings.SettingsStore
import SecureWipeOut.Table.Htab
import SecureWipeOut.Table.HtabRuns
import SecureWipeOut.Table.HtabSearch
import SecureWipeOut.Table.HtabSize
import SecureWipeOut.Update.Download
import SecureWipeOut.Update.DownloadExact
import SecureWipeOut.Update.Sanitize
