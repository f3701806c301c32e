import Pipewright.Main
import Pipewright.Proofs.Binding.Annotations
import Pipewright.Proofs.Binding.Carried
import Pipewright.Proofs.Binding.Views
import Pipewright.Proofs.Flow.Agreement
import Pipewright.Proofs.Wiring.Once
import Pipewright.Proofs.Wiring.Written
import Pipewright.Proofs.Flow.Loops
import Pipewright.Proofs.Container.Calls
import Pipewright.Proofs.Flow.Findings
import Pipewright.Proofs.Container.Names
import Pipewright.Proofs.Pipeline.Images
import Pipewright.Proofs.Storage.Frames
import Pipewright.Proofs.Pipeline.Owned
import Pipewright.Proofs.Pipeline.Failure
import Pipewright.Proofs.Tool.HandOver
import Pipewright.Proofs.Binding.Spelling
import Pipewright.Proofs.Docstring.Returned
import Pipewright.Proofs.Literal.Meaning
import Pipewright.Proofs.Wiring.Order
import Pipewright.Proofs.Binding.Integers
import Pipewright.Proofs.Literal.Strings
import Pipewright.Proofs.Literal.Numbers
import Pipewright.Proofs.Notebook.Echo
import Pipewright.Proofs.Notebook.Titles
import Pipewright.Proofs.Source.Quotable
import Pipewright.Proofs.Literal.Held
import Pipewright.Proofs.Literal.Places
import Pipewright.Proofs.Literal.Gathered
import Pipewright.Proofs.Literal.Whole
import Pipewright.Proofs.Notebook.Parameters
import Pipewright.Proofs.Result.Columns
import Pipewright.Proofs.Result.Shown
import Pipewright.Proofs.Result.Heads
import Pipewright.Proofs.Result.Peeks
import Pipewright.Proofs.Tool.Saving
import Pipewright.Proofs.Number.Whole
import Pipewright.Proofs.Result.Integers
import Pipewright.Proofs.Result.Literals
import Pipewright.Proofs.Result.Saved
import Pipewright.Proofs.Binding.Results
import Pipewright.Proofs.Pipeline.Shared
import Pipewright.Proofs.Source.Definitions
import Pipewright.Proofs.Source.Lookup
import Pipewright.Proofs.Source.Embedded
import Pipewright.Proofs.Pipeline.Artifacts
import Pipewright.Proofs.Cleanup
import Pipewright.Proofs.Program.EnvFiles
import Pipewright.Proofs.Template.Comments
import Pipewright.Proofs.Text.Margins
import Pipewright.Proofs.Channel.Sides
import Pipewright.Proofs.Template.Texts
import Pipewright.Proofs.Literal.Signs
import Pipewright.Proofs.Notebook.Imports
