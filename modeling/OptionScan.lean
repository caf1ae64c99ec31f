import OptionScan.Description
import OptionScan.Main
import OptionScan.Proofs.Partition
import OptionScan.Proofs.ModeAgreement
import OptionScan.Proofs.Rendering
import OptionScan.Proofs.Cover
import OptionScan.Proofs.Progress
import OptionScan.Proofs.Rescan
import OptionScan.Proofs.Forgetting
import OptionScan.Proofs.Frame
import OptionScan.Proofs.Reports
import OptionScan.Proofs.Cells
import OptionScan.Proofs.Strictness
import OptionScan.Proofs.Runner.Declarations
import OptionScan.Proofs.Runner.ReadBack
import OptionScan.Proofs.Runner.Rerouting
import OptionScan.Proofs.Boundaries
import OptionScan.Proofs.Standstill
import OptionScan.Proofs.Cutting
import OptionScan.Proofs.Concatenation
import OptionScan.Proofs.Spellings
import OptionScan.Proofs.Abbreviations
import OptionScan.Proofs.Undeclared
