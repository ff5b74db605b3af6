import ShaderBuild.Token.Scanner
import ShaderBuild.Comment
import ShaderBuild.Macro.Expand
import ShaderBuild.Digest
import ShaderBuild.Condition
import ShaderBuild.FileSystem
import ShaderBuild.Token.Reader
import ShaderBuild.Text.Decimal
import ShaderBuild.Backend
import ShaderBuild.Backend.Command
import ShaderBuild.Cache
import ShaderBuild.CommandLine
import ShaderBuild.CommandLine.Run
import ShaderBuild.Proofs.Branches
import ShaderBuild.Proofs.ReadBack
import ShaderBuild.Proofs.Includes
import ShaderBuild.Proofs.Comments
import ShaderBuild.Proofs.Values
import ShaderBuild.Proofs.Listings
import ShaderBuild.Proofs.ManifestText
import ShaderBuild.Proofs.Inlining
import ShaderBuild.Proofs.Bodies
import ShaderBuild.Proofs.Independence
import ShaderBuild.Proofs.Mentions
import ShaderBuild.Proofs.Appending
import ShaderBuild.Proofs.KeptComments
import ShaderBuild.Proofs.Diagnostics
import ShaderBuild.Proofs.Decomposition
import ShaderBuild.Proofs.Consistency
import ShaderBuild.Proofs.Documents
import ShaderBuild.Proofs.Runs
import ShaderBuild.Proofs.Rejoining
import ShaderBuild.Proofs.Acyclic
import ShaderBuild.Proofs.Literals
import ShaderBuild.Proofs.Conditions
import ShaderBuild.Proofs.Quotes
import ShaderBuild.Proofs.Sizes
import ShaderBuild.Proofs.Placeholders
import ShaderBuild.Proofs.CleanUp
import ShaderBuild.Proofs.Nesting
import ShaderBuild.Proofs.OutputPaths
import ShaderBuild.Proofs.SettingsDocuments
import ShaderBuild.Macro.Octets
import ShaderBuild.Proofs.Boundaries
import ShaderBuild.Proofs.Halting
import ShaderBuild.Proofs.Faults
