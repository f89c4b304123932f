import TapeScribe.Main
import TapeScribe.Proofs.Tape
import TapeScribe.Proofs.Printing
import TapeScribe.Proofs.CountReading
import TapeScribe.Proofs.DelimiterReading
import TapeScribe.Proofs.Echo
import TapeScribe.Proofs.WellFormed
import TapeScribe.Proofs.Capacity
import TapeScribe.Proofs.CellWidth
import TapeScribe.Proofs.Placement
import TapeScribe.Proofs.PrinterRun
import TapeScribe.Proofs.Outcome
import TapeScribe.Proofs.CommandLine
import TapeScribe.Proofs.OptionResolution
import TapeScribe.Proofs.VerbatimWords
import TapeScribe.Proofs.SettingsFile
import TapeScribe.Proofs.ShortestPrinting
import TapeScribe.Proofs.WrittenSettings
import TapeScribe.Proofs.PromptRun
import TapeScribe.Proofs.ModeLookup
import TapeScribe.Proofs.RequestArguments
import TapeScribe.Proofs.RequestForm
import TapeScribe.Proofs.ReaderBuilding
import TapeScribe.Proofs.ProgramHistory
import TapeScribe.Proofs.Refusal
import TapeScribe.Proofs.Refusal
