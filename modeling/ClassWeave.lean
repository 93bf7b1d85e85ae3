import ClassWeave.Decimal.Shortest
import ClassWeave.Main
import ClassWeave.Proofs.Batch.Accounts
import ClassWeave.Proofs.Batch.Rerun
import ClassWeave.Proofs.ClassFile.Insertion
import ClassWeave.Proofs.Loader
import ClassWeave.Proofs.Files.Descent
import ClassWeave.Proofs.Files.Clearing
import ClassWeave.Proofs.Files.Output
import ClassWeave.Proofs.Files.Outlet
import ClassWeave.Proofs.Batch.Pointwise
import ClassWeave.Proofs.Marker
import ClassWeave.Proofs.Batch.Separate
import ClassWeave.Proofs.Loader.Failure
import ClassWeave.Proofs.Exemption
import ClassWeave.Proofs.Driver
import ClassWeave.Proofs.Loader.Agreement
import ClassWeave.Proofs.Loader.Delegation
import ClassWeave.Proofs.Marker.Recorded
import ClassWeave.Proofs.Processor.Exposure
import ClassWeave.Proofs.Ledger.History
import ClassWeave.Proofs.Ledger.Sharing
import ClassWeave.Proofs.ClassFile.Truncation
import ClassWeave.Proofs.Marker.Survival
import ClassWeave.Proofs.ClassFile.Capacity
import ClassWeave.Proofs.Enhancer.Writes
import ClassWeave.Proofs.Eligibility.Additions
import ClassWeave.Proofs.Loader.Confinement
import ClassWeave.Proofs.Scan.FailFast
import ClassWeave.Proofs.Toml.Layering
import ClassWeave.Proofs.ClassUnit.Lifecycle
import ClassWeave.Proofs.Classpath
import ClassWeave.Proofs.Commit
import ClassWeave.Proofs.Config.Repeats
import ClassWeave.Proofs.Eligibility.Namespaces
