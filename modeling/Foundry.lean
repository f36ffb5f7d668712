import Foundry.Anvil.Pool.YieldOrder
import Foundry.Anvil.Pool.HashOrder
import Foundry.Anvil.Pool.Dropping
import Foundry.Anvil.Mem.BlockTags
import Foundry.Anvil.Mem.Protocol
import Foundry.Evm.ForkCalls
import Foundry.Evm.ForkReplies
import Foundry.Anvil.Time
import Foundry.Anvil.Mem.StateLimits
import Foundry.Anvil.FeeRewards
import Foundry.Linking.Create2
import Foundry.Linking.ZkTermination
import Foundry.Config.FsPermissions
import Foundry.Cheatcodes.PrankRuns
import Foundry.Cheatcodes.StepHooks
import Foundry.Cheatcodes.CallCounts
import Foundry.Cheatcodes.EmitForbidden
import Foundry.Cheatcodes.RevertRepetition
import Foundry.Cheatcodes.StateDiffMirror
import Foundry.Cheatcodes.StateDiffNet
import Foundry.Invariant.ShrinkMinimal
import Foundry.Common.SlotStrings
import Foundry.Common.PackedMembers
import Foundry.Common.MappingSlots
import Foundry.Fuzz.Dictionary
import Foundry.Zksync.FactoryDeps
import Foundry.Contracts.FundMe
import Foundry.Contracts.Raffle
import Foundry.Contracts.Tokens
import Foundry.Contracts.Wallets
import Foundry.Contracts.StudentRegistry
import Foundry.Zksync.RecordedCalls
import Foundry.Cast.Rlp
import Foundry.Common.ConsoleNumbers
import Foundry.Zksync.ForkMerge
import Foundry.Cast.Units
import Foundry.Cast.FindBlock
import Foundry.Fmt.Comments
import Foundry.Verify.MatchBytecodes
