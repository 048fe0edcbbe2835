import LogicCalculator.Main
import LogicCalculator.TruthTable
import LogicCalculator.Bindings.Json
import LogicCalculator.Proofs.Canonical
import LogicCalculator.Proofs.Layout
import LogicCalculator.Proofs.MaximalMunch
import LogicCalculator.Proofs.Moves
import LogicCalculator.Proofs.Splice
import LogicCalculator.Proofs.Trace
import LogicCalculator.Proofs.Log
import LogicCalculator.Proofs.UniqueReading
import LogicCalculator.Proofs.ArgumentLaws
import LogicCalculator.Proofs.Lines
import LogicCalculator.Proofs.CommandLine
import LogicCalculator.Proofs.LongestMatch
import LogicCalculator.Proofs.Concatenation
import LogicCalculator.Proofs.Diagnosis.Places
import LogicCalculator.Proofs.Machine
import LogicCalculator.Proofs.Machine.Simulation
import LogicCalculator.Proofs.Machine.Resources
import LogicCalculator.Proofs.LongestPath
import LogicCalculator.Proofs.Relevance
import LogicCalculator.Proofs.BindingTexts
import LogicCalculator.Proofs.Collecting
import LogicCalculator.Proofs.WordByWord
import LogicCalculator.Proofs.Session
