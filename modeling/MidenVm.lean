import MidenVm.Air.MemorySpec
import MidenVm.Air.MerkleSpec
import MidenVm.Air.StackArith
import MidenVm.Crypto.Mmr.History
import MidenVm.Crypto.Mmr.PeaksSpec
import MidenVm.Mast.Serialization.ViewSpec
import MidenVm.Mast.CanonicalForm
import MidenVm.Crypto.Smt.UniqueNodesSpec
import MidenVm.Crypto.Smt.PartialHistory
import MidenVm.Crypto.MerkleStore
import MidenVm.Stark.DeepQuotientSpec
import MidenVm.Stark.FriSpec
import MidenVm.Stark.LmcsSpec
import MidenVm.Stark.SerializingSponge
import MidenVm.Mast.Serialization.BlockCodec
import MidenVm.Air.BitwiseSpec
import MidenVm.Processor.FriOpsSpec
import MidenVm.Processor.RangeCheckerSpec
