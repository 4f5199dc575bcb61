import UdpGate.Monitor
import UdpGate.Pool
import UdpGate.Install
import UdpGate.Main
import UdpGate.Traffic
import UdpGate.Proofs.TableHistory
import UdpGate.Proofs.WidthVerdict
import UdpGate.Proofs.SlotStore
import UdpGate.Proofs.HeaderPrefix
import UdpGate.Proofs.MailboxRun
import UdpGate.Proofs.GateBooks
import UdpGate.Proofs.ListInstall
import UdpGate.Proofs.SharedTableRun
import UdpGate.Proofs.CanonicalChunks
import UdpGate.Proofs.HeaderCodec
import UdpGate.Proofs.SlotShares
import UdpGate.Proofs.LiveReports
import UdpGate.Proofs.DrainSteps
import UdpGate.Proofs.RuleGrammar
import UdpGate.Proofs.RuleLists
import UdpGate.Proofs.BuiltFrames
import UdpGate.Proofs.AcceptedSettings
import UdpGate.Proofs.ConsoleRun
import UdpGate.Proofs.CursorCalls
import UdpGate.Proofs.RegisterMap
import UdpGate.Proofs.OptionSpelling
import UdpGate.Proofs.ReaderForms
import UdpGate.Proofs.SettingsRoundTrip
import UdpGate.Proofs.HeaderSchedule
