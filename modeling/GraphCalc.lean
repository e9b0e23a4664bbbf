import GraphCalc.Compile
import GraphCalc.Curve
import GraphCalc.Grid
import GraphCalc.Interface.Button
import GraphCalc.Interface.Drawing
import GraphCalc.Interface.Input
import GraphCalc.Interface.Keyboard
import GraphCalc.Interface.Screen
import GraphCalc.Main
import GraphCalc.Proofs.EmptiedPad
import GraphCalc.Proofs.PointKey
import GraphCalc.Proofs.Occurrences
import GraphCalc.Proofs.DoubleArithmetic
import GraphCalc.Proofs.OperandText
import GraphCalc.Proofs.LeadingZeros
import GraphCalc.Proofs.OperationChains
import GraphCalc.Proofs.CurveSegments
import GraphCalc.Proofs.TextComposition
import GraphCalc.Proofs.ValidViewports
import GraphCalc.Proofs.StoredSession
import GraphCalc.Proofs.PlotHistory
import GraphCalc.Proofs.TabIsolation
import GraphCalc.Proofs.PostfixReading
import GraphCalc.Proofs.LeftmostFault
import GraphCalc.Proofs.ImplicitProducts
import GraphCalc.Proofs.DoubleDistances
import GraphCalc.Proofs.CurveJumps
import GraphCalc.Proofs.TokenText
import GraphCalc.Proofs.LexemeCuts
import GraphCalc.Proofs.SpellingParts
import GraphCalc.Proofs.GridMarks
import GraphCalc.Proofs.GridSteps
import GraphCalc.Proofs.GridDecades
import GraphCalc.Proofs.GridLines
import GraphCalc.Proofs.LabelText
import GraphCalc.Proofs.GridLabels
import GraphCalc.Proofs.ExactGrid
import GraphCalc.Proofs.ViewportEdges
import GraphCalc.Proofs.ShownBounds
