import EdaBitGen.Backend.Soundness
import EdaBitGen.Multifield.Calls
import EdaBitGen.Multifield.Conversions
import EdaBitGen.Svole.Stock
import EdaBitGen.Inferno.Precision
import EdaBitGen.Garbling.Tweaks
import EdaBitGen.SimpleArithCircuit.Reading
import EdaBitGen.MacNCheese.Completion
import EdaBitGen.MacNCheese.Supplying
import EdaBitGen.MacNCheese.SmallBinary
import EdaBitGen.SieveCompiler.Iteration
import EdaBitGen.SieveCompiler.MuxFaithful
import EdaBitGen.Ocelot.ExplicitRoundRun
import EdaBitGen.Scuttlebutt.F2Serializer
import EdaBitGen.MacNCheese.Communication
import EdaBitGen.MacNCheese.WireFormatRoundTrip
import EdaBitGen.MacNCheese.UncheckedReads
import EdaBitGen.MacNCheese.EventLogRoundTrip
import EdaBitGen.MacNCheese.SpecializationSums
import EdaBitGen.SieveParser.Readers
import EdaBitGen.Popsicle.Cuckoo
import EdaBitGen.Ocelot.KmprtProgrammed
import EdaBitGen.FancyGarbling.BinaryComparison
import EdaBitGen.FancyGarbling.CircuitEval
import EdaBitGen.FancyGarbling.BristolValues
import EdaBitGen.FancyGarbling.CrtSignAccuracy
import EdaBitGen.Plugins.MuxV0Selection
import EdaBitGen.FancyGarbling.WireLaws
import EdaBitGen.SimpleArithCircuit.Builder
import EdaBitGen.Ligero.Reuse
import EdaBitGen.Inferno.Malformed
import EdaBitGen.Inferno.Challenges
import EdaBitGen.MacNCheese.WireMapRefinement
import EdaBitGen.Scuttlebutt.F61pArithmetic
import EdaBitGen.Scuttlebutt.NewtonPolynomial
import EdaBitGen.Scuttlebutt.PolynomialDivision
import EdaBitGen.Backend.Comparison
import EdaBitGen.HdQuicksilver.Pow2Range
import EdaBitGen.Edabits.Cheddabits
import EdaBitGen.Edabits.FpMult
import EdaBitGen.HdQuicksilver.LocalPrg
import EdaBitGen.Memory.PoolCache
import EdaBitGen.Svole.Copee
import EdaBitGen.Svole.SinglePointParties
import EdaBitGen.FrontEnd.Agreement
import EdaBitGen.Mpc.Combination
import EdaBitGen.Backend.Session
