import SelfWiring.Main
import SelfWiring.Store.Backend
import SelfWiring.Store.Faulty
import SelfWiring.Store.ResultCode
import SelfWiring.Proofs.Decimals
import SelfWiring.Proofs.Identifiers
import SelfWiring.Proofs.Keys
import SelfWiring.Proofs.Json.Tokens
import SelfWiring.Proofs.Json.Documents
import SelfWiring.Proofs.Json.Records
import SelfWiring.Proofs.Contents
import SelfWiring.Proofs.Net
import SelfWiring.Proofs.Views
import SelfWiring.Proofs.Ensures
import SelfWiring.Proofs.Graph
import SelfWiring.Proofs.Cells
import SelfWiring.Proofs.Delivery
import SelfWiring.Proofs.Draws
import SelfWiring.Proofs.Processing
import SelfWiring.Proofs.Invariant
import SelfWiring.Proofs.Evolution
import SelfWiring.Proofs.Safety
import SelfWiring.Proofs.Turns
import SelfWiring.Proofs.Provenance
import SelfWiring.Proofs.Answers
import SelfWiring.Proofs.Budget
import SelfWiring.Proofs.Echoes
import SelfWiring.Proofs.Hops
import SelfWiring.Proofs.Walks
import SelfWiring.Proofs.Restarts
import SelfWiring.Proofs.Draining
import SelfWiring.Proofs.Accounts
import SelfWiring.Proofs.Drawless
import SelfWiring.Proofs.Replay
import SelfWiring.Proofs.Flaky
import SelfWiring.Proofs.References
import SelfWiring.Proofs.Routine
import SelfWiring.Proofs.Store.Order
import SelfWiring.Proofs.Store.Ideal
import SelfWiring.Proofs.Store.Rows
import SelfWiring.Proofs.Store.Blank
import SelfWiring.Proofs.Interrupted
import SelfWiring.Proofs.Twins
import SelfWiring.Proofs.Scenes
import SelfWiring.Proofs.Marks
import SelfWiring.Proofs.Retried
import SelfWiring.Proofs.Store.Agreement
import SelfWiring.Proofs.Store.Patterns
import SelfWiring.Proofs.Store.Healthy
import SelfWiring.Proofs.Unfinished
import SelfWiring.Proofs.Crowds
import SelfWiring.Proofs.Races
import SelfWiring.Proofs.Explorers
import SelfWiring.Proofs.Growth
import SelfWiring.Proofs.Forest
import SelfWiring.Proofs.Entrances
import SelfWiring.Proofs.FirstVisits
import SelfWiring.Proofs.Inventory
import SelfWiring.Proofs.Filings
import SelfWiring.Proofs.Counts
import SelfWiring.Proofs.Toml.Strings
import SelfWiring.Proofs.Toml.Documents
import SelfWiring.Proofs.Settings
import SelfWiring.Proofs.Operations
import SelfWiring.Proofs.Features
import SelfWiring.Proofs.Solitary
import SelfWiring.Proofs.Seeded
import SelfWiring.Proofs.Computing
import SelfWiring.Proofs.Store.Wildcards
import SelfWiring.Proofs.Store.Versions
import SelfWiring.Proofs.Store.Sorted
import SelfWiring.Proofs.Refusals
import SelfWiring.Proofs.Traces
import SelfWiring.Proofs.Ground
import SelfWiring.Proofs.Orders
import SelfWiring.Proofs.Store.Rankings
import SelfWiring.Proofs.Backoff
import SelfWiring.Proofs.Latecomers
import SelfWiring.Proofs.Effects
import SelfWiring.Proofs.Chronicle
import SelfWiring.Proofs.KeyTexts
import SelfWiring.Proofs.Json.Layout
import SelfWiring.Proofs.Json.Content
import SelfWiring.Proofs.Json.Decoding
