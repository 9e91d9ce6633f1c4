import ShaderCompose.Main
import ShaderCompose.Proofs.Compose.Sharing
import ShaderCompose.Proofs.Engine.Clean
import ShaderCompose.Proofs.Engine.Jumps
import ShaderCompose.Proofs.Engine.Keys
import ShaderCompose.Proofs.Engine.References
import ShaderCompose.Proofs.Engine.SlotTypes
import ShaderCompose.Proofs.Engine.Structs
import ShaderCompose.Proofs.Engine.This
import ShaderCompose.Proofs.Engine.Transparency
import ShaderCompose.Proofs.Engine.Variables
import ShaderCompose.Proofs.Generic.Written
import ShaderCompose.Proofs.Lang.Constants
import ShaderCompose.Proofs.Library.Dependents
import ShaderCompose.Proofs.Library.Fetched
import ShaderCompose.Proofs.Library.Founded
import ShaderCompose.Proofs.Module.Workshop
import ShaderCompose.Proofs.Preprocess.Blocks
import ShaderCompose.Proofs.Preprocess.Conditions
import ShaderCompose.Proofs.Preprocess.Literals
import ShaderCompose.Proofs.Preprocess.Positions
import ShaderCompose.Proofs.Reader.Comments
import ShaderCompose.Proofs.Reflect.Complete
import ShaderCompose.Proofs.Reflect.Recursion
import ShaderCompose.Proofs.Reflect.Slots
import ShaderCompose.Proofs.Request.RoundTrip
import ShaderCompose.Proofs.Stream.Exits
import ShaderCompose.Proofs.Stream.Reached
