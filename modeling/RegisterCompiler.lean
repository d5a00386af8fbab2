import RegisterCompiler.Main
import RegisterCompiler.Proofs.Assignments
import RegisterCompiler.Proofs.ConstantTables
import RegisterCompiler.Proofs.Diagnostics
import RegisterCompiler.Proofs.ExprRegisters
import RegisterCompiler.Proofs.LexicalScope
import RegisterCompiler.Proofs.LongBrackets
import RegisterCompiler.Proofs.Negations
import RegisterCompiler.Proofs.NilLoads
import RegisterCompiler.Proofs.Precedence
import RegisterCompiler.Proofs.Rebuilds
import RegisterCompiler.Proofs.Sessions
import RegisterCompiler.Proofs.SizeBytes
import RegisterCompiler.Proofs.SourceFiles
import RegisterCompiler.Proofs.StrippedImages
import RegisterCompiler.Proofs.ThreadedRuns
