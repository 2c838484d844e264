import ReactiveSheet.Main
import ReactiveSheet.Proofs.Console
import ReactiveSheet.Proofs.Formula.Failure
import ReactiveSheet.Proofs.Formula.Height
import ReactiveSheet.Proofs.Formula.Precedence
import ReactiveSheet.Proofs.Formula.Tokenizing
import ReactiveSheet.Proofs.Sheet.CycleSafety
import ReactiveSheet.Proofs.Sheet.Order
import ReactiveSheet.Proofs.Sheet.Repetition
import ReactiveSheet.Proofs.Table
