import FsTrace.CommandLine
import FsTrace.Main
import FsTrace.Proofs.FixedTree
import FsTrace.Proofs.SecondChance
import FsTrace.Proofs.FragmentWalk
import FsTrace.Proofs.SharedChains
import FsTrace.Proofs.StoredChains
import FsTrace.Proofs.LostFragments
import FsTrace.Proofs.HandlerCalls
import FsTrace.Proofs.IncompletePaths
import FsTrace.Proofs.OpenCalls
import FsTrace.Proofs.Correlation
import FsTrace.Proofs.LiveQueue
import FsTrace.Proofs.LinkedChains
import FsTrace.Proofs.CutChains
import FsTrace.Proofs.PathBytes
import FsTrace.Proofs.BufferRanges
import FsTrace.Proofs.ParkedCalls
import FsTrace.Proofs.Emissions
import FsTrace.Proofs.SoundTrees
import FsTrace.Proofs.CurrentFragments
import FsTrace.Proofs.FragmentCalls
import FsTrace.Proofs.TracedTrees
import FsTrace.Proofs.TracedCalls
import FsTrace.Proofs.TracedRuns
import FsTrace.Proofs.SlotReuse
import FsTrace.Proofs.SeparateThreads
import FsTrace.Proofs.PathNames
import FsTrace.Proofs.AgreeingModes
import FsTrace.Proofs.ShownPaths
import FsTrace.Proofs.TableLimits
import FsTrace.Proofs.CallAccounts
import FsTrace.Proofs.ClosedChains
import FsTrace.Proofs.LoopingChains
import FsTrace.Proofs.WatchedInodes
import FsTrace.Proofs.CoveredDirectories
import FsTrace.Proofs.WrittenLines
import FsTrace.Proofs.JsonText
import FsTrace.Proofs.RecordsReadBack
import FsTrace.Proofs.ListedEntries
import FsTrace.Proofs.PathOutcome
import FsTrace.Proofs.CarriedPaths
import FsTrace.Proofs.GrownTrees
import FsTrace.Proofs.WorkerSteps
import FsTrace.Proofs.WorkerAccounts
import FsTrace.Proofs.WorkerEntries
import FsTrace.Proofs.WorkerRecords
import FsTrace.Proofs.SimulatedWork
import FsTrace.Proofs.Retention
import FsTrace.Proofs.LatestPaths
import FsTrace.Proofs.MissingInodes
import FsTrace.Proofs.RenamedTargets
import FsTrace.Proofs.ConnectedEntries
import FsTrace.Proofs.MovedSubtrees
import FsTrace.Proofs.GrownShape
