import DenseCore.Proofs.Kernels.Q4Order
import DenseCore.Proofs.Attention.PagedDecode
import DenseCore.Proofs.Ssm.FusedDecode
import DenseCore.Proofs.Llm.WorkContext
import DenseCore.Proofs.Memory.CowInterleaving
import DenseCore.Proofs.Runtime.Lifecycle
import DenseCore.Proofs.Runtime.Concurrency
import DenseCore.Proofs.Server.Wakeup
import DenseCore.Proofs.Server.WorkerPool
import DenseCore.Proofs.Server.QwenStream
import DenseCore.Proofs.Runtime.Emission
import DenseCore.Proofs.Models.RoundTrip
import DenseCore.Proofs.Sampling.Grammar
import DenseCore.Proofs.Server.ToolCallIds
import DenseCore.Proofs.Server.ToolArguments
import DenseCore.Proofs.Server.ContextWindow
import DenseCore.Proofs.Server.EngineOrphans
import DenseCore.Proofs.Server.DecisionTokenizer
import DenseCore.Proofs.Runtime.Cancellation
import DenseCore.Proofs.Runtime.Delivery
import DenseCore.Proofs.Runtime.RequestReuse
import DenseCore.Proofs.Runtime.TerminalEvents
import DenseCore.Proofs.Matmul.RepackBudget
import DenseCore.Proofs.Memory.KvStorage
import DenseCore.Proofs.Memory.PrefixLookup
import DenseCore.Proofs.Memory.Registration
import DenseCore.Proofs.Runtime.BlockSharing
import DenseCore.Proofs.Runtime.ContextBuckets
import DenseCore.Proofs.Runtime.GraphExecutor
import DenseCore.Proofs.Memory.KvSwap
import DenseCore.Proofs.Models.MergeQueue
import DenseCore.Proofs.Runtime.Reassembly
import DenseCore.Proofs.Sampling.Argmax
import DenseCore.Proofs.Sampling.GreedyPaths
import DenseCore.Proofs.Runtime.Blame
import DenseCore.Proofs.Models.PretokenizerPattern
import DenseCore.Proofs.Memory.KvAddress
import DenseCore.Proofs.Server.ExpertBudget
import DenseCore.Proofs.Server.Gemma4Stream
import DenseCore.Proofs.Server.Lfm2Stream
import DenseCore.Proofs.Server.PromptLookup
import DenseCore.Proofs.Models.Unigram
import DenseCore.Proofs.Server.JsonSpans
import DenseCore.Proofs.Server.TagOffsets
import DenseCore.Proofs.Server.Decision
import DenseCore.Proofs.Server.DecisionBpe
import DenseCore.Attention.KvUpdate
import DenseCore.Memory.KVBlockAllocator
import DenseCore.Models.SetWeight
import DenseCore.Runtime.GraphContext
import DenseCore.Runtime.KvSizing
import DenseCore.Matmul.RepackTrim
import DenseCore.Kernels.Int4Quantizer
import DenseCore.Runtime.PrefillChunk
import DenseCore.Moe.Routing
import DenseCore.Moe.Workspace
