import StackScript.Declaration.Outline
import StackScript.Document.Code
import StackScript.Document.Method
import StackScript.Document.Source
import StackScript.Json.Reading
import StackScript.Proofs.Declaration.Hierarchy
import StackScript.Proofs.Evaluation.Effects
import StackScript.Proofs.Layout.Order
import StackScript.Proofs.Layout.Regions
import StackScript.Proofs.Program.Builds
import StackScript.Proofs.Evaluation.Deferral
import StackScript.Proofs.Program.Statics
import StackScript.Proofs.Evaluation.Spreading
import StackScript.Proofs.Evaluation.Selection
import StackScript.Proofs.Declaration.Files
import StackScript.Proofs.Flow.Calls
import StackScript.Proofs.Evaluation.Arrays
import StackScript.Proofs.Layout.Points
import StackScript.Proofs.Layout.Elision
import StackScript.Proofs.Program.Courses
import StackScript.Proofs.Writing.Handouts
import StackScript.Proofs.Writing.Fixups
import StackScript.Proofs.Program.Soundness
