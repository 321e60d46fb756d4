import NougatArt.Loops.IterationCount
import NougatArt.Heap.ValuePropagationSound
import NougatArt.Heap.LoadHoistPreserves
import NougatArt.Loops.BottomLoopsPreserves
import NougatArt.Codegen.DivRem
import NougatArt.Graphs.Dominance
import NougatArt.Moves.ScratchResolverResolves
import NougatArt.Induction.InductionRange
import NougatArt.CodeMotion.LicmPreserves
import NougatArt.Gc.CopyGraph
import NougatArt.Text.Comparison
import NougatArt.Base.HashSetMultiset
import NougatArt.Base.InternTable
import NougatArt.Instructions.BoundsChecks
import NougatArt.Instructions.Rotate
import NougatArt.Instructions.TypeTests
import NougatArt.Loops.ConstantSinking
import NougatArt.Passes.Placement
import NougatArt.Gc.LiveBuffers
import NougatArt.Gc.SweepArray
import NougatArt.Codegen.LocationCatalog
