import LoxBytecode.CommandLine.FileTree
import LoxBytecode.Main
import LoxBytecode.Proofs.Compile.History
import LoxBytecode.Proofs.Compile.Execution
import LoxBytecode.Proofs.Compile.Heights
import LoxBytecode.Proofs.Compile.Independence
import LoxBytecode.Proofs.Compile.Jumps
import LoxBytecode.Proofs.Compile.References
import LoxBytecode.Proofs.Heap.Survivors
import LoxBytecode.Proofs.Code.Stage
import LoxBytecode.Proofs.Compile.Following
import LoxBytecode.Proofs.Compile.Limits
import LoxBytecode.Proofs.Walk.Printed
import LoxBytecode.Proofs.Compile.InRange
import LoxBytecode.Proofs.Compile.Progress
import LoxBytecode.Proofs.Compile.Order
import LoxBytecode.Proofs.Compile.Closing
import LoxBytecode.Proofs.Compile.Grammar
import LoxBytecode.Proofs.Compile.Locals
import LoxBytecode.Proofs.Compile.Lines
import LoxBytecode.Proofs.Compile.Functions
import LoxBytecode.Proofs.Compile.Naming
import LoxBytecode.Proofs.Compile.Recovery
import LoxBytecode.Proofs.Scope.Lookups
import LoxBytecode.Proofs.Token.Spans
import LoxBytecode.Proofs.Token.Written
import LoxBytecode.Proofs.Chunk.Lines
import LoxBytecode.Proofs.Chunk.Loads
import LoxBytecode.Proofs.Chunk.Listing
import LoxBytecode.Proofs.Compile.Waiting
