import Multimatch.Control
import Multimatch.FlagSet
import Multimatch.Ident
import Multimatch.MarkerSet
import Multimatch.Codec.Label
import Multimatch.Scheme.Choice
import Multimatch.Table.Build
import Multimatch.Table.Saved
import Multimatch.Scan.Basic
import Multimatch.Rules.Rule
import Multimatch.EndOfData.Finish
import Multimatch.Proofs.Scan.Loaded
import Multimatch.Proofs.Scan.Stream
import Multimatch.Proofs.EndOfData.Fits
import Multimatch.Proofs.EndOfData.Logic
import Multimatch.Proofs.EndOfData.Safe
import Multimatch.Proofs.EndOfData.Total
import Multimatch.Proofs.EndOfData.Cut
import Multimatch.Proofs.EndOfData.Halt
import Multimatch.Proofs.EndOfData.Runs
import Multimatch.Proofs.EndOfData.Heard
import Multimatch.Proofs.EndOfData.Phases
import Multimatch.Proofs.EndOfData.Eager
import Multimatch.Proofs.FlagSet
import Multimatch.Proofs.EndOfData.Matched
import Multimatch.Proofs.EndOfData.Reuse
import Multimatch.Proofs.EndOfData.Keeps
import Multimatch.Proofs.EndOfData.Modes
import Multimatch.Proofs.EndOfData.Pending
import Multimatch.Proofs.EndOfData.SecondWalk
import Multimatch.Proofs.EndOfData.LastByte
import Multimatch.Proofs.Table.Resaved
import Multimatch.Proofs.Scan.SameReads
import Multimatch.Proofs.EndOfData.Around
import Multimatch.Proofs.EndOfData.Reflects
import Multimatch.Proofs.EndOfData.Fired
import Multimatch.Proofs.EndOfData.InTurn
import Multimatch.Proofs.EndOfData.Acceptors
import Multimatch.Proofs.EndOfData.Charges
import Multimatch.Proofs.EndOfData.Suffixes
import Multimatch.Proofs.Table.Extent
import Multimatch.Proofs.Table.Outcome
import Multimatch.Proofs.Rules.WellFormed
import Multimatch.Proofs.EndOfData.CatchUp
import Multimatch.Proofs.Scheme.Optimal
import Multimatch.Proofs.Codec.Fields
import Multimatch.Proofs.Table.Permuted
import Multimatch.Proofs.Table.ByteOrder
import Multimatch.Proofs.Scheme.Growth
import Multimatch.Proofs.FlagSet.History
import Multimatch.Proofs.MarkerSet.History
import Multimatch.Proofs.Scan.Folding
import Multimatch.Proofs.Scan.QuickCheck
import Multimatch.Proofs.Scan.Throttle
