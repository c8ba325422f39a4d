import Quench.Memory.StreamingWindow
import Quench.Memory.PinAccounting
import Quench.Runtime.ThinkText
import Quench.Runtime.PromptLookup
import Quench.Runtime.SpecRuns
import Quench.Runtime.RecurrentSlots
import Quench.Compute.GbnfFuel
import Quench.Compute.GbnfLeft
import Quench.Compute.GbnfCrowded
import Quench.Compute.JsonForceClose
import Quench.Compute.PreambleGate
import Quench.Compute.RegexFuel
import Quench.Compute.RegexRefusal
import Quench.Compute.RegexConstrain
import Quench.Model.Tokenizer
import Quench.Model.GgufShards
import Quench.Server.HarmonyChannels
import Quench.Runtime.ThinkBudget
import Quench.Runtime.TokenRecycle
import Quench.Memory.FailedPrefix
import Quench.Memory.RollbackHashes
import Quench.Memory.SnapshotStore
import Quench.Memory.PlanBudget
import Quench.Runtime.Conservation
import Quench.Memory.KVCache
