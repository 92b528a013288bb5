import AccScript.Proofs.Code.Arrays
import AccScript.Proofs.Code.Conditions
import AccScript.Proofs.Code.Jumps
import AccScript.Proofs.Code.Labels
import AccScript.Proofs.Code.Layout
import AccScript.Proofs.Code.RestElements
import AccScript.Proofs.Code.Restoration
import AccScript.Proofs.Code.Returns
import AccScript.Proofs.Code.Serialization
import AccScript.Proofs.Code.SuperCalls
import AccScript.Proofs.Code.Switches
import AccScript.Proofs.Code.Units
import AccScript.Proofs.Environment.Balance
import AccScript.Proofs.Environment.Renewal
import AccScript.Proofs.Number.Spelling
import AccScript.Proofs.Scope.Links
import AccScript.Proofs.Scope.Order
import AccScript.Proofs.Stream.Records
import AccScript.Proofs.Survey.Modules
import AccScript.Report.Listings
import AccScript.Report.Surveys
import AccScript.Proofs.Code.Protection
