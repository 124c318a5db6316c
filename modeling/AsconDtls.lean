import AsconDtls.Lib.Access
import AsconDtls.Lib.Checked
import AsconDtls.Lib.Firsts
import AsconDtls.Lib.Hmac
import AsconDtls.Lib.InPlace
import AsconDtls.Lib.Oracle
import AsconDtls.Lib.Pack
import AsconDtls.Lib.Padding
import AsconDtls.Lib.Recorder
import AsconDtls.Lib.Rotate
import AsconDtls.Lib.KeyedPerm
import AsconDtls.Lib.Leakage
import AsconDtls.Lib.Pool
import AsconDtls.Lib.Collision
import AsconDtls.Permutation.Bijective
import AsconDtls.MaskPrf.States
import AsconDtls.Wolf.CallOrder
import AsconDtls.Wolf.Hash
import AsconDtls.Wolf.History
import AsconDtls.Wolf.Transcript
import AsconDtls.Wolf.Invariant
import AsconDtls.Wolf.InPlace
import AsconDtls.Wolf.Leakage
import AsconDtls.Wolf.Contexts
import AsconDtls.Wolf.NonceReuse
import AsconDtls.Provider.Session
import AsconDtls.Provider.Interop
import AsconDtls.Provider.Nonce
import AsconDtls.Provider.Transcript
import AsconDtls.Provider.Hash
import AsconDtls.Provider.Hmac
import AsconDtls.Provider.Chunking
import AsconDtls.Provider.Interleave
import AsconDtls.Provider.Inits
import AsconDtls.Provider.FreshTag
import AsconDtls.Provider.Simulation
import AsconDtls.Provider.Guarded
import AsconDtls.Provider.InPlace
import AsconDtls.Provider.Contexts
import AsconDtls.Provider.Collision
import AsconDtls.Formal.MaskPrfFcf
import AsconDtls.Formal.DupEvent
import AsconDtls.Formal.MaskPrfFull
import AsconDtls.Formal.MaskPrfEc
import AsconDtls.Formal.RecordModel
import AsconDtls.Formal.Delivery
import AsconDtls.Formal.KeyUpdate
import AsconDtls.Formal.EpochNonce
import AsconDtls.Formal.MaskPrfSponge
import AsconDtls.Tools.NegativeProxy
import AsconDtls.Tools.CorruptTarget
import AsconDtls.Tools.CorruptTags
import AsconDtls.Tools.WireCheck
import AsconDtls.Tools.WireSound
import AsconDtls.Tools.WireScan
import AsconDtls.Tools.Refragment
import AsconDtls.Tools.RelayPcap
import AsconDtls.Tools.ProxyModes
import AsconDtls.Tools.TamperedRecords
import AsconDtls.Tools.WireVerdict
import AsconDtls.Tools.TamperVerdicts
import AsconDtls.Evaluation.SysTick
import AsconDtls.Evaluation.BenchDriver
import AsconDtls.Evaluation.Dudect
import AsconDtls.Evaluation.Boot
