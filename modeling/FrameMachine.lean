import FrameMachine.Main
import FrameMachine.Proofs.Command.Ending
import FrameMachine.Proofs.Command.Observation
import FrameMachine.Proofs.Command.Spelling
import FrameMachine.Proofs.Command.Start
import FrameMachine.Proofs.Json.Grammar
import FrameMachine.Proofs.Json.Values
import FrameMachine.Proofs.Machine.AllOrNothing
import FrameMachine.Proofs.Machine.Faults
import FrameMachine.Proofs.Machine.Fetch
import FrameMachine.Proofs.Machine.Footprint
import FrameMachine.Proofs.Machine.Listing
import FrameMachine.Proofs.Machine.Records
import FrameMachine.Proofs.Machine.Session
import FrameMachine.Proofs.Machine.Steps
import FrameMachine.Proofs.Register.Views
import FrameMachine.Proofs.Snapshot.Objects
import FrameMachine.Proofs.Snapshot.Restore
import FrameMachine.Proofs.Stack.Call
import FrameMachine.Proofs.Stack.Counter
import FrameMachine.Proofs.Stack.Lifo
import FrameMachine.Proofs.Stack.Nesting
import FrameMachine.Proofs.Stack.Return
import FrameMachine.Proofs.Stack.Words
import FrameMachine.Proofs.Store.Images
import FrameMachine.Proofs.Store.Rendering
import FrameMachine.Proofs.Text.Addresses
import FrameMachine.Snapshot.Reader
