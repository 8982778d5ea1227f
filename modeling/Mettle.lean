import Mettle.Arm64.EmitSound
import Mettle.Common.HalfDouble
import Mettle.Ir.AliasTypesExact
import Mettle.Ir.BitsetSound
import Mettle.Ir.CfgBuildExact
import Mettle.Ir.DeadTempsSound
import Mettle.Ir.DominatorsFrontier
import Mettle.Ir.EffectsTrace
import Mettle.Ir.IntMapSound
import Mettle.Ir.NullCheckLicmSound
import Mettle.Ir.PhiCopies
import Mettle.Ir.ReadonlyGlobalsSound
import Mettle.Ir.RemainderMask
import Mettle.Ir.RewriteChains
import Mettle.Ir.TempValueMapRun
import Mettle.Linker.CoffExact
import Mettle.Linker.ElfDynamic
import Mettle.Linker.ElfImageExact
import Mettle.Linker.GcExact
import Mettle.Linker.RelocationExact
import Mettle.Linker.SectionsMerge
import Mettle.Mir.AddressPasses
import Mettle.Mir.ConstPoolSound
import Mettle.Mir.CseLoadsSound
import Mettle.Mir.DivmodSound
import Mettle.Mir.LivenessSound
import Mettle.Mir.Regalloc
import Mettle.Runtime.LoopCheck
import Mettle.Runtime.ParallelFor
import Mettle.Runtime.Routines
import Mettle.Runtime.ValueTable
import Mettle.Semantic.MachineDescSound
import Mettle.Semantic.RangesSound
import Mettle.Semantic.TypeLayoutSound
