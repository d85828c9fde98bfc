import MarginAccount.Engine.Basic
import MarginAccount.Json.Report
import MarginAccount.Main
import MarginAccount.Proofs.Decimal.Place
import MarginAccount.Proofs.Decimal.Rounding
import MarginAccount.Proofs.Decimal.Arithmetic
import MarginAccount.Proofs.Decimal.Quotient
import MarginAccount.Proofs.Decimal.FixedPoint
import MarginAccount.Proofs.Risk.Monotone
import MarginAccount.Proofs.Risk.Insolvency
import MarginAccount.Proofs.Account.Change
import MarginAccount.Proofs.Account.Valuation
import MarginAccount.Proofs.Trade.Bounds
import MarginAccount.Proofs.Engine.Report
import MarginAccount.Proofs.Account.Projection
import MarginAccount.Proofs.Trade.Withdrawal
import MarginAccount.Proofs.Trade.Borrow
import MarginAccount.Proofs.Account.Appraisal
import MarginAccount.Proofs.Account.Order
import MarginAccount.Proofs.Account.Figures
import MarginAccount.Proofs.Account.Shortfall
import MarginAccount.Proofs.Account.Gains
import MarginAccount.Proofs.Account.Repricing
import MarginAccount.Proofs.Account.Landing
import MarginAccount.Proofs.Account.WhatIf
import MarginAccount.Proofs.Engine.Liquidation
import MarginAccount.Proofs.Engine.Session
import MarginAccount.Proofs.Engine.Authority
import MarginAccount.Proofs.Engine.Direction
import MarginAccount.Proofs.Engine.Landing
import MarginAccount.Proofs.Engine.Refusal
import MarginAccount.Proofs.Engine.Log
import MarginAccount.Proofs.Trade.Overflow
import MarginAccount.Proofs.Engine.Fault
import MarginAccount.Proofs.Engine.Reconciliation
import MarginAccount.Proofs.Engine.Staleness
import MarginAccount.Proofs.Engine.PriceLoss
import MarginAccount.Proofs.Account.Tightening
import MarginAccount.Proofs.Trade.Tightening
import MarginAccount.Proofs.Engine.Tightening
import MarginAccount.Proofs.Decimal.Text
import MarginAccount.Proofs.Json.Text
import MarginAccount.Proofs.Json.Codec
import MarginAccount.Proofs.Json.Record
import MarginAccount.Proofs.Json.Account
import MarginAccount.Proofs.Json.Report
import MarginAccount.Proofs.Account.Rearrangement
import MarginAccount.Proofs.Engine.Eligibility
import MarginAccount.Proofs.Engine.Rearrangement
import MarginAccount.Proofs.Engine.RoundTrip
import MarginAccount.Proofs.Engine.WellFormed
import MarginAccount.Proofs.Account.Exactness
import MarginAccount.Proofs.Account.Merging
import MarginAccount.Proofs.Trade.Coverage
import MarginAccount.Proofs.Trade.Response
import MarginAccount.Proofs.Trade.Utilization
import MarginAccount.Proofs.Account.Unpriced
import MarginAccount.Proofs.Engine.OutOfRange
import MarginAccount.Proofs.Decimal.Conversion
import MarginAccount.Proofs.Trade.Partition
import MarginAccount.Proofs.Account.Leverage
import MarginAccount.Proofs.Account.Admission
import MarginAccount.Proofs.Json.Checked
import MarginAccount.Proofs.Amount
import MarginAccount.Proofs.Trade.Notes
